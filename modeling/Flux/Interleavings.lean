import Mathlib.Data.List.Perm.Basic
import Mathlib.Logic.Relation

/-!
Programs that share a state. A program is a tree of calls, each of which takes
the whole state at once and may fail; between two calls of one program any other
program may run. An invariant that every call of every program keeps, and under
which no call fails, holds in every interleaving.
-/
namespace Flux.Interleavings

variable {S ε α β : Type} {s s' t u : S} {guarantee : S → S → Prop}

inductive Program (S ε α : Type) : Type 1
  | done (a : α)
  | call {β : Type} (op : S → Except ε (S × β)) (next : β → Program S ε α)

namespace Program

def bind : Program S ε α → (α → Program S ε β) → Program S ε β
  | done a, k => k a
  | call op next, k => call op (fun b => bind (next b) k)

instance : Monad (Program S ε) where
  pure := done
  bind := bind

def atomically (op : S → Except ε (S × α)) : Program S ε α := call op done

def modify (f : S → S × α) : Program S ε α := atomically (fun s => .ok (f s))

def read (f : S → α) : Program S ε α := modify (fun s => (s, f s))

def run : Program S ε α → S → Except ε (S × α)
  | done a, s => .ok (s, a)
  | call op next, s =>
      match op s with
      | .error e => .error e
      | .ok (s, b) => run (next b) s

theorem run_bind {p : Program S ε α} {k : α → Program S ε β} {a : α} (h : p.run s = .ok (s', a)) :
    (p >>= k).run s = (k a).run s' := by
  induction p generalizing s with
  | done b =>
    cases h
    rfl
  | call op next ih =>
    simp only [run] at h
    split at h
    · cases h
    · rename_i t b hop
      rw [← ih b h]
      show run (call op fun b => bind (next b) k) s = _
      simp only [run, hop]
      rfl

theorem run_bind_ok {p : Program S ε α} {k : α → Program S ε β} {s'' : S} {b : β}
    (h : (p >>= k).run s = .ok (s'', b)) :
    ∃ s' a, p.run s = .ok (s', a) ∧ (k a).run s' = .ok (s'', b) := by
  cases hp : p.run s with
  | ok r => exact ⟨r.1, r.2, rfl, (run_bind hp).symm.trans h⟩
  | error e =>
    exfalso
    induction p generalizing s with
    | done a => cases hp
    | call op next ih =>
      simp only [run] at hp
      have hrun : run (call op fun b => bind (next b) k) s = .ok (s'', b) := h
      simp only [run] at hrun
      split at hp
      · rename_i hop
        rw [hop] at hrun
        cases hrun
      · rename_i hop
        rw [hop] at hrun
        exact ih _ hrun hp

/-- The program comes to its end, and between its calls others change the state. -/
def Amid (others : S → S → Prop) : Program S ε α → S → S → α → Prop
  | done a, s, s', a' => Relation.ReflTransGen others s s' ∧ a' = a
  | call op next, s, s', a' => ∃ t u b, Relation.ReflTransGen others s t ∧ op t = .ok (u, b) ∧
      Amid others (next b) u s' a'

section Interference

variable {others : S → S → Prop}

theorem amid_bind {p : Program S ε α} {k : α → Program S ε β} {s'' : S} {b : β}
    (h : Amid others (p >>= k) s s'' b) :
    ∃ s' a, Amid others p s s' a ∧ Amid others (k a) s' s'' b := by
  induction p generalizing s with
  | done a => exact ⟨s, a, ⟨.refl, rfl⟩, h⟩
  | call op next ih =>
    obtain ⟨t, u, c, hothers, hop, hrest⟩ := h
    obtain ⟨s', a, hfirst, hlast⟩ := ih c hrest
    exact ⟨s', a, ⟨t, u, c, hothers, hop, hfirst⟩, hlast⟩

theorem amid_modify {f : S → S × α} {a : α} (h : Amid others (modify f : Program S ε α) s s' a) :
    ∃ t, Relation.ReflTransGen others s t ∧ Relation.ReflTransGen others (f t).1 s' ∧
      a = (f t).2 := by
  obtain ⟨t, u, c, hothers, hop, hafter, rfl⟩ := h
  have hpair : f t = (u, a) := Except.ok.inj hop
  exact ⟨t, hothers, by rw [hpair]; exact hafter, by rw [hpair]⟩

/-- What others keep holds after any number of their steps. -/
theorem stable {I : S → Prop} (hothers : ∀ s t, others s t → I s → I t)
    (h : Relation.ReflTransGen others s s') (hs : I s) : I s' := by
  induction h with
  | refl => exact hs
  | tail _ hstep ih => exact hothers _ _ hstep ih

end Interference

def Upholds (rely guarantee : S → S → Prop) (post : S → α → Prop) : Program S ε α → S → Prop
  | done a, s => post s a
  | call op next, s => ∀ t, Relation.ReflTransGen rely s t → ∀ u b, op t = .ok (u, b) →
      guarantee t u ∧ Upholds rely guarantee post (next b) u

/-- The program, interrupted by others from `s` on, makes a call that takes `t`
to `u`. -/
def Makes (others : S → S → Prop) : Program S ε α → S → S → S → Prop
  | done _, _, _, _ => False
  | call op next, s, t, u =>
      (∃ b, Relation.ReflTransGen others s t ∧ op t = .ok (u, b)) ∨
      ∃ t' u' b, Relation.ReflTransGen others s t' ∧ op t' = .ok (u', b) ∧
        Makes others (next b) u' t u

theorem Makes.mono {others others' : S → S → Prop} (h : ∀ s t, others s t → others' s t)
    {p : Program S ε α} (hp : Makes others p s t u) : Makes others' p s t u := by
  induction p generalizing s with
  | done a => exact hp
  | call op next ih =>
    rcases hp with ⟨b, hothers, hop⟩ | ⟨t', u', b, hothers, hop, hlater⟩
    · exact .inl ⟨b, Relation.ReflTransGen.mono h _ _ hothers, hop⟩
    · exact .inr ⟨t', u', b, Relation.ReflTransGen.mono h _ _ hothers, hop, ih b hlater⟩

section Contracts

variable {rely guarantee : S → S → Prop} {post mid : S → α → Prop} {post' : S → β → Prop}

theorem upholds_bind {p : Program S ε α} {k : α → Program S ε β}
    (hp : Upholds rely guarantee mid p s)
    (hk : ∀ t a, mid t a → Upholds rely guarantee post' (k a) t) :
    Upholds rely guarantee post' (p >>= k) s := by
  induction p generalizing s with
  | done a => exact hk s a hp
  | call op next ih =>
    intro t hrely u b hop
    obtain ⟨hcall, hnext⟩ := hp t hrely u b hop
    exact ⟨hcall, ih b hnext⟩

/-- A contract that relies on less and promises more is the stronger one. -/
theorem Upholds.mono {rely' guarantee' : S → S → Prop} {p : Program S ε α}
    (hp : Upholds rely guarantee mid p s) (hothers : ∀ s t, rely' s t → rely s t)
    (hcalls : ∀ s t, guarantee s t → guarantee' s t) (h : ∀ t a, mid t a → post t a) :
    Upholds rely' guarantee' post p s := by
  induction p generalizing s with
  | done a => exact h s a hp
  | call op next ih =>
    intro t hrely u b hop
    obtain ⟨hcall, hnext⟩ := hp t (Relation.ReflTransGen.mono hothers _ _ hrely) u b hop
    exact ⟨hcalls t u hcall, ih b hnext⟩

theorem Upholds.weaken {p : Program S ε α} (hp : Upholds rely guarantee mid p s)
    (h : ∀ t a, mid t a → post t a) : Upholds rely guarantee post p s :=
  hp.mono (fun _ _ => id) (fun _ _ => id) h

theorem upholds_atomically {op : S → Except ε (S × α)}
    (h : ∀ t, Relation.ReflTransGen rely s t → ∀ u a, op t = .ok (u, a) →
      guarantee t u ∧ post u a) : Upholds rely guarantee post (atomically op) s := h

theorem upholds_modify {f : S → S × α}
    (h : ∀ t, Relation.ReflTransGen rely s t → guarantee t (f t).1 ∧ post (f t).1 (f t).2) :
    Upholds rely guarantee post (modify f : Program S ε α) s := by
  intro t hrely u a hop
  have hpair : f t = (u, a) := Except.ok.inj hop
  have ht := h t hrely
  rwa [hpair] at ht

theorem Upholds.makes {p : Program S ε α} (hp : Upholds rely guarantee post p s)
    (h : Makes rely p s t u) : guarantee t u := by
  induction p generalizing s with
  | done a => exact h.elim
  | call op next ih =>
    rcases h with ⟨b, hrely, hop⟩ | ⟨t', u', b, hrely, hop, hlater⟩
    · exact (hp t hrely u b hop).1
    · exact ih b (hp t' hrely u' b hop).2 hlater

/-- A contract is still there after steps of the others. -/
theorem Upholds.others {p : Program S ε α} (hpost : ∀ s t a, rely s t → post s a → post t a)
    (hp : Upholds rely guarantee post p s) (h : Relation.ReflTransGen rely s t) :
    Upholds rely guarantee post p t := by
  cases p with
  | done a =>
    induction h with
    | refl => exact hp
    | tail _ hstep ih => exact hpost _ _ a hstep ih
  | call op next => exact fun t' hrely => hp t' (h.trans hrely)

/-- Without interruption there is nothing to rely on. -/
theorem Upholds.run {p : Program S ε α} {a : α} (hp : Upholds rely guarantee post p s)
    (h : p.run s = .ok (s', a)) : post s' a := by
  induction p generalizing s with
  | done b =>
    cases h
    exact hp
  | call op next ih =>
    simp only [Program.run] at h
    split at h
    · cases h
    · exact ih _ (hp s .refl _ _ ‹_›).2 h

end Contracts

abbrev Still (post : α → Prop) (p : Program S ε α) (s : S) : Prop :=
  Upholds (fun _ _ => False) (fun t u => u = t) (fun _ a => post a) p s

theorem Still.next {β : Type} {post : α → Prop} {op : S → Except ε (S × β)}
    {next : β → Program S ε α} {b : β} (h : Still post (call op next) s) (hop : op s = .ok (u, b)) :
    u = s ∧ Still post (next b) s := by
  obtain ⟨rfl, hnext⟩ := h s .refl u b hop
  exact ⟨rfl, hnext⟩

abbrev Yields (post : S → α → Prop) (p : Program S ε α) (s : S) : Prop :=
  Upholds (fun _ _ => False) (fun _ _ => True) post p s

theorem alone (h : Relation.ReflTransGen (fun _ _ : S => False) s t) : t = s := by
  rcases h.cases_tail with heq | ⟨u, -, hstep⟩
  · exact heq
  · exact hstep.elim

section Outcomes

variable {post : S → α → Prop}

theorem yields_atomically {op : S → Except ε (S × α)} (h : ∀ u a, op s = .ok (u, a) → post u a) :
    Yields post (atomically op) s := by
  refine upholds_atomically (fun t halone u a hop => ⟨trivial, ?_⟩)
  rw [alone halone] at hop
  exact h u a hop

theorem yields_modify {f : S → S × α} (h : post (f s).1 (f s).2) :
    Yields post (modify f : Program S ε α) s :=
  upholds_modify (fun t halone => ⟨trivial, by rw [alone halone]; exact h⟩)

theorem yields_read_bind {f : S → β} {k : β → Program S ε α} (h : Yields post (k (f s)) s) :
    Yields post (read f >>= k) s := by
  have hread : Yields (fun t b => t = s ∧ b = f s) (read f : Program S ε β) s :=
    yields_modify ⟨rfl, rfl⟩
  refine upholds_bind hread ?_
  rintro t b ⟨rfl, rfl⟩
  exact h

theorem yields_trivial (p : Program S ε α) (s : S) : Yields (fun _ _ => True) p s := by
  induction p generalizing s with
  | done a => trivial
  | call op next ih => exact fun t _ u b _ => ⟨trivial, ih b u⟩

def Returns (p : Program S ε α) (s : S) : Prop := ∃ s' a, p.run s = .ok (s', a)

theorem returns_modify (f : S → S × α) (s : S) : Returns (modify f : Program S ε α) s :=
  ⟨_, _, rfl⟩

theorem returns_bind {p : Program S ε α} {k : α → Program S ε β} (hp : Yields post p s)
    (hreturns : Returns p s) (hk : ∀ t a, post t a → Returns (k a) t) : Returns (p >>= k) s := by
  induction p generalizing s with
  | done a => exact hk s a hp
  | call op next ih =>
    obtain ⟨s', a, hrun⟩ := hreturns
    simp only [run] at hrun
    split at hrun
    · cases hrun
    · rename_i t b hop
      obtain ⟨s'', b', hrest⟩ := ih b (hp s .refl t b hop).2 ⟨s', a, hrun⟩
      refine ⟨s'', b', ?_⟩
      rw [← hrest]
      show run (call op fun b => bind (next b) k) s = _
      simp only [run, hop]
      rfl

theorem returns_read_bind {f : S → β} {k : β → Program S ε α} (h : Returns (k (f s)) s) :
    Returns (read f >>= k) s := by
  have hread : Yields (fun t b => t = s ∧ b = f s) (read f : Program S ε β) s :=
    yields_modify ⟨rfl, rfl⟩
  refine returns_bind hread (returns_modify _ s) ?_
  rintro t b ⟨rfl, rfl⟩
  exact h

end Outcomes

/-- Within `I` no call fails where `total` holds, every call follows `guarantee`,
and the result is as `post` says. -/
def Obeys (I : S → Prop) (total : Prop) (guarantee : S → S → Prop) (post : α → Prop) :
    Program S ε α → Prop
  | done a => post a
  | call op next => ∀ s, I s → (total → ∃ r, op s = .ok r) ∧
      ∀ s' b, op s = .ok (s', b) → guarantee s s' ∧ Obeys I total guarantee post (next b)

section Rules

variable {I : S → Prop} {total : Prop} {guarantee : S → S → Prop} {post : α → Prop}
  {post' : β → Prop}

theorem obeys_bind {p : Program S ε α} {k : α → Program S ε β}
    (hp : Obeys I total guarantee post p)
    (hk : ∀ a, post a → Obeys I total guarantee post' (k a)) :
    Obeys I total guarantee post' (p >>= k) := by
  induction p with
  | done a => exact hk a hp
  | call op next ih =>
    intro s hs
    obtain ⟨hok, hcalls⟩ := hp s hs
    refine ⟨hok, fun s' b hop => ?_⟩
    obtain ⟨hcall, hnext⟩ := hcalls s' b hop
    exact ⟨hcall, ih b hnext⟩

/-- A program that obeys these rules obeys weaker ones. -/
theorem Obeys.weaken {total' : Prop} {post' : α → Prop} {p : Program S ε α}
    (hp : Obeys I total guarantee post p) (htotal : total' → total) (h : ∀ a, post a → post' a) :
    Obeys I total' guarantee post' p := by
  induction p with
  | done a => exact h a hp
  | call op next ih =>
    intro s hs
    obtain ⟨hok, hcalls⟩ := hp s hs
    refine ⟨fun ht => hok (htotal ht), fun s' b hop => ?_⟩
    obtain ⟨hcall, hnext⟩ := hcalls s' b hop
    exact ⟨hcall, ih b hnext⟩

theorem obeys_atomically {op : S → Except ε (S × α)}
    (h : ∀ s, I s → (total → ∃ r, op s = .ok r) ∧
      ∀ s' a, op s = .ok (s', a) → guarantee s s' ∧ post a) :
    Obeys I total guarantee post (atomically op) := h

theorem obeys_modify {f : S → S × α} (h : ∀ s, I s → guarantee s (f s).1 ∧ post (f s).2) :
    Obeys I total guarantee post (modify f : Program S ε α) := by
  refine obeys_atomically (fun s hs => ⟨fun _ => ⟨f s, rfl⟩, fun s' a hop => ?_⟩)
  have hpair : f s = (s', a) := Except.ok.inj hop
  have hcall := h s hs
  rwa [hpair] at hcall

/-- A call that changes the state by what may fail. -/
theorem obeys_mapping {γ : Type} {f : S → Except ε γ} {g : S → γ → S × α}
    (hok : total → ∀ s, I s → ∃ c, f s = .ok c)
    (h : ∀ s c, I s → f s = .ok c → guarantee s (g s c).1 ∧ post (g s c).2) :
    Obeys I total guarantee post (atomically (fun s => (f s).map (g s))) := by
  refine obeys_atomically (fun s hs => ⟨fun ht => ?_, fun s' a hop => ?_⟩)
  · obtain ⟨c, hc⟩ := hok ht s hs
    exact ⟨g s c, by rw [hc]; rfl⟩
  · cases hf : f s with
    | error e =>
      rw [hf] at hop
      cases hop
    | ok c =>
      rw [hf] at hop
      have hpair : g s c = (s', a) := Except.ok.inj hop
      have hcall := h s c hs hf
      rwa [hpair] at hcall

theorem obeys_ite {c : Prop} [Decidable c] {p q : Program S ε α}
    (hp : c → Obeys I total guarantee post p) (hq : ¬ c → Obeys I total guarantee post q) :
    Obeys I total guarantee post (if c then p else q) := by
  split
  · exact hp ‹_›
  · exact hq ‹_›

end Rules

/-- No call fails or breaks the invariant, whatever the others do to the state
within it, and the result is as `post` says. -/
abbrev Safe (I : S → Prop) (post : α → Prop) (p : Program S ε α) : Prop :=
  Obeys I True (fun _ s' => I s') post p

section Safety

variable {I : S → Prop} {post : α → Prop}

theorem Safe.call {op : S → Except ε (S × β)} {next : β → Program S ε α}
    (h : Safe I post (call op next)) (hs : I s) :
    ∃ s' b, op s = .ok (s', b) ∧ I s' ∧ Safe I post (next b) := by
  obtain ⟨hok, hcalls⟩ := h s hs
  obtain ⟨⟨s', b⟩, hop⟩ := hok trivial
  exact ⟨s', b, hop, hcalls s' b hop⟩

/-- A safe program comes to its end. -/
theorem Safe.run {p : Program S ε α} (hp : Safe I post p) (hs : I s) :
    ∃ s' a, p.run s = .ok (s', a) ∧ I s' ∧ post a := by
  induction p generalizing s with
  | done a => exact ⟨s, a, rfl, hs, hp⟩
  | call op next ih =>
    obtain ⟨s', b, hop, hs', hnext⟩ := hp.call hs
    obtain ⟨s'', a, hrun, hs'', hpost⟩ := ih b hnext hs'
    refine ⟨s'', a, ?_, hs'', hpost⟩
    simp only [Program.run, hop, hrun]

end Safety

/-- Every call of the program that is made within the invariant follows
`guarantee`. -/
abbrev Confined (I : S → Prop) (guarantee : S → S → Prop) (p : Program S ε α) : Prop :=
  Obeys I False guarantee (fun _ => True) p

theorem Obeys.confined {I : S → Prop} {total : Prop} {post : α → Prop} {p : Program S ε α}
    (hp : Obeys I total guarantee post p) : Confined I guarantee p :=
  hp.weaken False.elim (fun _ _ => trivial)

end Program

structure Pool (S ε α : Type) : Type 1 where
  state : S
  running : List (Program S ε α)

inductive Turn (S ε α : Type) : Type 1
  | start (p : Program S ε α)
  | advance (i : ℕ)

def Pool.step (pool : Pool S ε α) : Turn S ε α → Except ε (Pool S ε α)
  | .start p => .ok { pool with running := pool.running ++ [p] }
  | .advance i =>
      match pool.running[i]? with
      | none => .ok pool
      | some (.done _) => .ok { pool with running := pool.running.eraseIdx i }
      | some (.call op next) =>
          match op pool.state with
          | .error e => .error e
          | .ok (s, b) => .ok ⟨s, pool.running.set i (next b)⟩

/-- The next call of a program under way: it is not there, it has come to its
end, or it makes a call and goes on. -/
theorem Pool.advance_cases {pool pool' : Pool S ε α} {i : ℕ}
    (h : pool.step (.advance i) = .ok pool') :
    (pool.running[i]? = none ∧ pool' = pool) ∨
    (∃ a, pool.running[i]? = some (.done a) ∧ pool'.state = pool.state ∧
      pool.running.Perm (.done a :: pool'.running)) ∨
    ∃ (β : Type) (op : S → Except ε (S × β)) (next : β → Program S ε α) (b : β)
      (rest : List (Program S ε α)), pool.running[i]? = some (.call op next) ∧
      op pool.state = .ok (pool'.state, b) ∧ pool.running.Perm (.call op next :: rest) ∧
      pool'.running.Perm (next b :: rest) := by
  have hperm : ∀ p, pool.running[i]? = some p →
      i < pool.running.length ∧ pool.running.Perm (p :: pool.running.eraseIdx i) := by
    intro p hp
    obtain ⟨hlt, rfl⟩ := List.getElem?_eq_some_iff.mp hp
    exact ⟨hlt, (List.getElem_cons_eraseIdx_perm hlt).symm⟩
  simp only [Pool.step] at h
  split at h
  · cases h
    exact .inl ⟨‹_›, rfl⟩
  · cases h
    exact .inr (.inl ⟨_, ‹_›, rfl, (hperm _ ‹_›).2⟩)
  · split at h
    · cases h
    · cases h
      refine .inr (.inr ⟨_, _, _, _, _, ‹_›, ‹_›, (hperm _ ‹_›).2, ?_⟩)
      exact List.set_perm_cons_eraseIdx (hperm _ ‹_›).1 _

/-- A program of a list is the one at its head or one of the others. -/
theorem perm_cons_cases {l rest rest' : List (Program S ε α)} {p q : Program S ε α}
    (h : l.Perm (p :: rest)) (h' : l.Perm (q :: rest')) :
    (q = p ∧ rest'.Perm rest) ∨
      ∃ others, rest.Perm (q :: others) ∧ rest'.Perm (p :: others) := by
  have hperm : (q :: rest').Perm (p :: rest) := h'.symm.trans h
  rcases List.mem_cons.mp (hperm.subset (List.mem_cons_self ..)) with rfl | hmem
  · exact .inl ⟨rfl, hperm.cons_inv⟩
  · obtain ⟨front, back, rfl⟩ := List.append_of_mem hmem
    refine .inr ⟨front ++ back, List.perm_middle, ?_⟩
    have hswap : (q :: rest').Perm (q :: p :: (front ++ back)) :=
      hperm.trans ((List.perm_middle.cons p).trans (List.Perm.swap ..))
    exact hswap.cons_inv

def Pool.exec (pool : Pool S ε α) : List (Turn S ε α) → Except ε (Pool S ε α)
  | [] => .ok pool
  | turn :: rest =>
      match pool.step turn with
      | .error e => .error e
      | .ok pool => pool.exec rest

structure Pool.Good (I : S → Prop) (post : α → Prop) (pool : Pool S ε α) : Prop where
  state : I pool.state
  running : ∀ p ∈ pool.running, Program.Safe I post p

section Runs

variable {I : S → Prop} {post : α → Prop}

/-- A turn of a good pool does not fail and leaves it good. -/
theorem Pool.Good.step {pool : Pool S ε α} (h : pool.Good I post) (turn : Turn S ε α)
    (hturn : ∀ p, turn = .start p → Program.Safe I post p) :
    ∃ pool', pool.step turn = .ok pool' ∧ pool'.Good I post := by
  cases turn with
  | start p =>
    refine ⟨_, rfl, h.state, fun q hq => ?_⟩
    rcases List.mem_append.mp hq with hold | hnew
    · exact h.running q hold
    · rw [List.mem_singleton.mp hnew]
      exact hturn p rfl
  | advance i =>
    cases hget : pool.running[i]? with
    | none => exact ⟨pool, by simp [Pool.step, hget], h⟩
    | some p =>
      have hp := h.running p (List.mem_of_getElem? hget)
      cases p with
      | done a =>
        refine ⟨{ pool with running := pool.running.eraseIdx i }, by simp only [Pool.step, hget],
          h.state, fun q hq => ?_⟩
        exact h.running q (List.mem_of_mem_eraseIdx hq)
      | call op next =>
        obtain ⟨s', b, hop, hs', hnext⟩ := hp.call h.state
        refine ⟨⟨s', pool.running.set i (next b)⟩, by simp only [Pool.step, hget, hop], hs',
          fun q hq => ?_⟩
        rcases List.mem_or_eq_of_mem_set hq with hold | rfl
        · exact h.running q hold
        · exact hnext

/-- In every interleaving of safe programs no call fails. -/
theorem Pool.Good.exec {pool : Pool S ε α} (h : pool.Good I post) {turns : List (Turn S ε α)}
    (hturns : ∀ p, Turn.start p ∈ turns → Program.Safe I post p) :
    ∃ pool', pool.exec turns = .ok pool' ∧ pool'.Good I post := by
  induction turns generalizing pool with
  | nil => exact ⟨pool, rfl, h⟩
  | cons turn rest ih =>
    obtain ⟨mid, hstep, hmid⟩ := h.step turn
      (fun p hp => hturns p (hp ▸ List.mem_cons_self ..))
    obtain ⟨pool', hexec, hgood⟩ := ih hmid (fun p hp => hturns p (List.mem_cons_of_mem _ hp))
    exact ⟨pool', by simp only [Pool.exec, hstep, hexec], hgood⟩

/-- One turn of confined programs; those under way stay confined. -/
theorem Pool.step_confined {pool pool' : Pool S ε α} {turn : Turn S ε α} (hs : I pool.state)
    (hrunning : ∀ p ∈ pool.running, Program.Confined I guarantee p)
    (hturn : ∀ p, turn = .start p → Program.Confined I guarantee p)
    (h : pool.step turn = .ok pool') :
    (pool'.state = pool.state ∨ guarantee pool.state pool'.state) ∧
      ∀ p ∈ pool'.running, Program.Confined I guarantee p := by
  cases turn with
  | start p =>
    cases h
    refine ⟨.inl rfl, fun q hq => ?_⟩
    rcases List.mem_append.mp hq with hold | hnew
    · exact hrunning q hold
    · rw [List.mem_singleton.mp hnew]
      exact hturn p rfl
  | advance i =>
    rcases Pool.advance_cases h with
      ⟨-, rfl⟩ | ⟨a, -, hstate, hperm⟩ | ⟨β, op, next, b, rest, hget, hop, hperm, hperm'⟩
    · exact ⟨.inl rfl, hrunning⟩
    · exact ⟨.inl hstate,
        fun q hq => hrunning q (hperm.mem_iff.mpr (List.mem_cons_of_mem _ hq))⟩
    · obtain ⟨hcall, hnext⟩ := (hrunning _ (List.mem_of_getElem? hget) _ hs).2 _ _ hop
      refine ⟨.inr hcall, fun q hq => ?_⟩
      rcases List.mem_cons.mp (hperm'.mem_iff.mp hq) with rfl | hrest
      · exact hnext
      · exact hrunning q (hperm.mem_iff.mpr (List.mem_cons_of_mem _ hrest))

/-- Every interleaving of confined programs moves the state by steps that follow
`guarantee`. -/
theorem Pool.exec_confined (hkeep : ∀ s s', I s → guarantee s s' → I s') {pool pool' : Pool S ε α}
    {turns : List (Turn S ε α)} (hs : I pool.state)
    (hrunning : ∀ p ∈ pool.running, Program.Confined I guarantee p)
    (hturns : ∀ p, Turn.start p ∈ turns → Program.Confined I guarantee p)
    (h : pool.exec turns = .ok pool') : Relation.ReflTransGen guarantee pool.state pool'.state := by
  induction turns generalizing pool with
  | nil =>
    cases h
    exact .refl
  | cons turn rest ih =>
    simp only [Pool.exec] at h
    split at h
    · cases h
    · obtain ⟨hstep, hmid⟩ := Pool.step_confined hs hrunning
        (fun p hp => hturns p (hp ▸ List.mem_cons_self ..)) ‹_›
      have hlater := fun hs' => ih hs' hmid (fun p hp => hturns p (List.mem_cons_of_mem _ hp)) h
      rcases hstep with hsame | hcall
      · rw [hsame] at hlater
        exact hlater hs
      · exact .head hcall (hlater (hkeep _ _ hs hcall))

end Runs

end Flux.Interleavings
