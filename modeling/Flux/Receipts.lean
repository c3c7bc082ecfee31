import Flux.Interleavings

/-!
Requests that give out tokens. A desk runs one program for each request on a
shared state and answers with the program's result; a failed call or a renewal
of the state loses the requests under way. If every program gives out one token
at most, and no token that is good comes out a second time, then the tokens of
all requests, answered or not, are good and differ.
-/
namespace Flux.Receipts

open Interleavings

variable {S ε α β τ κ K : Type}

def Issues (I : S → Prop) (guarantee : S → S → Prop) (gives : τ → S → S → Prop)
    (post : Option τ → α → Prop) : Program S ε α → Option τ → Prop
  | .done a, t => post t a
  | .call op next, t => ∀ s s' b, I s → op s = .ok (s', b) →
      (guarantee s s' ∧ Issues I guarantee gives post (next b) t) ∨
      ∃ u, t = none ∧ gives u s s' ∧ Issues I guarantee gives post (next b) (some u)

section Programs

variable {I : S → Prop} {guarantee : S → S → Prop} {gives : τ → S → S → Prop}
  {post : Option τ → α → Prop} {t : Option τ} {total : Prop} {mid : β → Prop}

theorem issues_bind {p : Program S ε β} {k : β → Program S ε α}
    (hp : Program.Obeys I total guarantee mid p) (hk : ∀ b, Issues I guarantee gives post (k b) t) :
    Issues I guarantee gives post (p >>= k) t := by
  induction p with
  | done b => exact hk b
  | call op next ih =>
    intro s s' b hs hop
    obtain ⟨hcall, hnext⟩ := (hp s hs).2 s' b hop
    exact .inl ⟨hcall, ih b hnext⟩

theorem issues_obeys {p : Program S ε α} {mid : α → Prop}
    (hp : Program.Obeys I total guarantee mid p) (h : ∀ a, post t a) :
    Issues I guarantee gives post p t := by
  induction p with
  | done a => exact h a
  | call op next ih =>
    intro s s' b hs hop
    obtain ⟨hcall, hnext⟩ := (hp s hs).2 s' b hop
    exact .inl ⟨hcall, ih b hnext⟩

/-- What one call returns is known in what follows. -/
theorem issues_atomically_bind {op : S → Except ε (S × β)} {k : β → Program S ε α}
    (h : ∀ s s' b, op s = .ok (s', b) →
      guarantee s s' ∧ Issues I guarantee gives post (k b) t) :
    Issues I guarantee gives post (Program.atomically op >>= k) t :=
  fun s s' b _ hop => .inl (h s s' b hop)

/-- The call that gives out the token. -/
theorem issues_modify_bind {f : S → S × β} {k : β → Program S ε α} (token : S → τ)
    (hgives : ∀ s, I s → gives (token s) s (f s).1)
    (hk : ∀ s, I s → Issues I guarantee gives post (k (f s).2) (some (token s))) :
    Issues I guarantee gives post (Program.modify f >>= k) none := by
  intro s s' b hs hop
  have hpair : f s = (s', b) := Except.ok.inj hop
  have hgive := hgives s hs
  have hnext := hk s hs
  rw [hpair] at hgive hnext
  exact .inr ⟨token s, rfl, hgive, hnext⟩

/-- A program that runs alone gives out its token in one step of the state, if its
other calls leave alone what `view` sees. -/
theorem Issues.run {V : Type} {view : S → V} (hcalm : ∀ s s', guarantee s s' → view s' = view s)
    {p : Program S ε α} (h : Issues (fun _ => True) guarantee gives post p t) {s s' : S} {a : α}
    (hrun : p.run s = .ok (s', a)) :
    (view s' = view s ∧ post t a) ∨
      ∃ u s₁ s₂, t = none ∧ view s₁ = view s ∧ gives u s₁ s₂ ∧ view s' = view s₂ ∧
        post (some u) a := by
  induction p generalizing s t with
  | done b =>
    cases hrun
    exact .inl ⟨rfl, h⟩
  | call op next ih =>
    rw [Program.run] at hrun
    cases hop : op s with
    | error e =>
      rw [hop] at hrun
      cases hrun
    | ok r =>
      obtain ⟨s₁, b⟩ := r
      rw [hop] at hrun
      rcases h s s₁ b trivial hop with ⟨hcall, hnext⟩ | ⟨u, hnone, hgive, hnext⟩
      · rcases ih b hnext hrun with ⟨hview, hpost⟩ | ⟨u, s₂, s₃, hnone, hview, hgive, hlast, hpost⟩
        · exact .inl ⟨hview.trans (hcalm s s₁ hcall), hpost⟩
        · exact .inr ⟨u, s₂, s₃, hnone, hview.trans (hcalm s s₁ hcall), hgive, hlast, hpost⟩
      · rcases ih b hnext hrun with ⟨hview, hpost⟩ | ⟨_, _, _, hsome, -⟩
        · exact .inr ⟨u, s, s₁, hnone, rfl, hgive, hview, hpost⟩
        · cases hsome

end Programs

inductive Progress (S ε α : Type) : Type 1
  | running (p : Program S ε α)
  | answered (a : α)
  | lost

def Progress.interrupted : Progress S ε α → Progress S ε α
  | .running _ => .lost
  | .answered a => .answered a
  | .lost => .lost

structure Desk (S ε κ α : Type) : Type 1 where
  state : S
  up : Bool
  requests : List (κ × Progress S ε α)

namespace Desk

def accept (d : Desk S ε κ α) (k : κ) (p : Program S ε α) : Desk S ε κ α :=
  if d.up then { d with requests := d.requests ++ [(k, .running p)] } else d

def interrupt (d : Desk S ε κ α) : Desk S ε κ α :=
  { d with up := false, requests := d.requests.map (fun r => (r.1, r.2.interrupted)) }

def advance (d : Desk S ε κ α) (i : ℕ) : Desk S ε κ α :=
  match d.requests[i]? with
  | some (k, .running (.done a)) => { d with requests := d.requests.set i (k, .answered a) }
  | some (k, .running (.call op next)) =>
      match op d.state with
      | .error _ => d.interrupt
      | .ok (s, b) => { d with state := s, requests := d.requests.set i (k, .running (next b)) }
  | _ => d

def renew (d : Desk S ε κ α) (f : S → S) : Desk S ε κ α :=
  { d.interrupt with state := f d.state, up := true }

end Desk

section Tokens

variable (I : S → Prop) (guarantee : S → S → Prop) (gives : τ → S → S → Prop)
  (post : κ → Option τ → α → Prop) (good : S → τ → Prop) (key : τ → K)

/-- The request has given out the token, if any, and goes on accordingly. -/
def Follows (r : κ × Progress S ε α) (t : Option τ) : Prop :=
  match r.2 with
  | .running p => Issues I guarantee gives (post r.1) p t
  | .answered a => post r.1 t a
  | .lost => True

/-- The tokens that the requests have given out. -/
structure Held (d : Desk S ε κ α) (token : ℕ → Option τ) : Prop where
  good : ∀ i t, token i = some t → good d.state t
  apart : ∀ i j t u, token i = some t → token j = some u → key t = key u → i = j
  follows : ∀ i r, d.requests[i]? = some r → Follows I guarantee gives post r (token i)
  fresh : ∀ i, d.requests.length ≤ i → token i = none

variable {I guarantee gives post good key} {d : Desk S ε κ α} {token : ℕ → Option τ}

theorem Follows.interrupted {r : κ × Progress S ε α} {t : Option τ}
    (h : Follows I guarantee gives post r t) :
    Follows I guarantee gives post (r.1, r.2.interrupted) t := by
  obtain ⟨k, progress⟩ := r
  cases progress with
  | running p => trivial
  | answered a => exact h
  | lost => trivial

section Tokens

variable (h : Held I guarantee gives post good key d token)

include h

theorem Held.accept {k : κ} {p : Program S ε α} (hp : Issues I guarantee gives (post k) p none) :
    Held I guarantee gives post good key (d.accept k p) token := by
  unfold Desk.accept
  split
  · refine ⟨h.good, h.apart, fun i r hr => ?_, fun i hi => h.fresh i ?_⟩
    · rcases Nat.lt_or_ge i d.requests.length with hlt | hge
      · rw [List.getElem?_append_left hlt] at hr
        exact h.follows i r hr
      · rw [List.getElem?_append_right hge] at hr
        rw [List.mem_singleton.mp (List.mem_of_getElem? hr), h.fresh i hge]
        exact hp
    · rw [List.length_append] at hi
      omega
  · exact h

theorem Held.interrupt : Held I guarantee gives post good key d.interrupt token := by
  refine ⟨h.good, h.apart, fun i r hr => ?_, fun i hi => h.fresh i ?_⟩
  · rw [Desk.interrupt, List.getElem?_map, Option.map_eq_some_iff] at hr
    obtain ⟨r₀, hr₀, rfl⟩ := hr
    exact (h.follows i r₀ hr₀).interrupted
  · simpa only [Desk.interrupt, List.length_map] using hi

theorem Held.renew {f : S → S} (hf : ∀ t, good d.state t → good (f d.state) t) :
    Held I guarantee gives post good key (d.renew f) token :=
  ⟨fun i t ht => hf t (h.good i t ht), h.apart, h.interrupt.follows, h.interrupt.fresh⟩

/-- One request has moved on, with the same token. -/
theorem Held.moved {i : ℕ} {r : κ × Progress S ε α} {s : S}
    (hgood : ∀ t, good d.state t → good s t) (hr : Follows I guarantee gives post r (token i)) :
    Held I guarantee gives post good key { d with state := s, requests := d.requests.set i r }
      token := by
  refine ⟨fun j t ht => hgood t (h.good j t ht), h.apart, fun j q hq => ?_, fun j hj => ?_⟩
  · rcases eq_or_ne i j with rfl | hne
    · have hi := (List.getElem?_eq_some_iff.mp hq).1
      rw [List.length_set] at hi
      rw [List.getElem?_set_self hi] at hq
      cases hq
      exact hr
    · rw [List.getElem?_set_ne hne] at hq
      exact h.follows j q hq
  · exact h.fresh j (by simpa only [List.length_set] using hj)

/-- One request has given out a token of its own. -/
theorem Held.given {i : ℕ} {t : τ} (hi : i < d.requests.length) (hnone : token i = none)
    {r : κ × Progress S ε α} {s : S} (ht : good s t)
    (hgood : ∀ u, good d.state u → good s u ∧ key u ≠ key t)
    (hr : Follows I guarantee gives post r (some t)) :
    Held I guarantee gives post good key { d with state := s, requests := d.requests.set i r }
      (Function.update token i (some t)) := by
  have hold : ∀ j u, Function.update token i (some t) j = some u →
      (j = i ∧ u = t) ∨ (token j = some u) := by
    intro j u hu
    rcases eq_or_ne j i with rfl | hne
    · rw [Function.update_self] at hu
      exact .inl ⟨rfl, (Option.some.inj hu).symm⟩
    · rw [Function.update_of_ne hne] at hu
      exact .inr hu
  refine ⟨fun j u hu => ?_, fun j l u v hu hv hkey => ?_, fun j q hq => ?_, fun j hj => ?_⟩
  · rcases hold j u hu with ⟨-, rfl⟩ | hbefore
    · exact ht
    · exact (hgood u (h.good j u hbefore)).1
  · rcases hold j u hu with ⟨rfl, rfl⟩ | hbefore
    · rcases hold l v hv with ⟨rfl, -⟩ | hbefore
      · rfl
      · exact absurd hkey.symm (hgood v (h.good l v hbefore)).2
    · rcases hold l v hv with ⟨-, rfl⟩ | hbefore₂
      · exact absurd hkey (hgood u (h.good j u hbefore)).2
      · exact h.apart j l u v hbefore hbefore₂ hkey
  · rcases eq_or_ne i j with rfl | hne
    · rw [List.getElem?_set_self hi] at hq
      cases hq
      rwa [Function.update_self]
    · rw [List.getElem?_set_ne hne] at hq
      rw [Function.update_of_ne hne.symm]
      exact h.follows j q hq
  · rw [List.length_set] at hj
    rw [Function.update_of_ne (by omega)]
    exact h.fresh j hj

end Tokens

def Moved (guarantee : S → S → Prop) (gives : τ → S → S → Prop) (s s' : S) : Prop :=
  s' = s ∨ guarantee s s' ∨ ∃ t, gives t s s'

theorem Held.advance (h : Held I guarantee gives post good key d token) (hs : I d.state)
    (hcalm : ∀ s', guarantee d.state s' → ∀ t, good d.state t → good s' t)
    (hgives : ∀ t s', gives t d.state s' → good s' t ∧
      ∀ u, good d.state u → good s' u ∧ key u ≠ key t) (i : ℕ) :
    (∃ token', Held I guarantee gives post good key (d.advance i) token') ∧
      Moved guarantee gives d.state (d.advance i).state := by
  unfold Desk.advance
  split
  · rename_i k a hget
    have hanswer : post k (token i) a := h.follows i _ hget
    exact ⟨⟨token, h.moved (fun _ ht => ht) hanswer⟩, .inl rfl⟩
  · rename_i k β op next hget
    split
    · exact ⟨⟨token, h.interrupt⟩, .inl rfl⟩
    · rename_i s b hop
      rcases h.follows i _ hget d.state s b hs hop with
        ⟨hcall, hnext⟩ | ⟨t, hnone, hgive, hnext⟩
      · exact ⟨⟨token, h.moved (hcalm s hcall) hnext⟩, .inr (.inl hcall)⟩
      · obtain ⟨ht, hothers⟩ := hgives t s hgive
        have hi := (List.getElem?_eq_some_iff.mp hget).1
        exact ⟨⟨_, h.given hi hnone ht hothers hnext⟩, .inr (.inr ⟨t, hgive⟩)⟩
  · exact ⟨⟨token, h⟩, .inl rfl⟩

end Tokens

end Flux.Receipts
