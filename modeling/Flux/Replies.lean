import Flux.Receipts

/-!
Requests and the answers they get. Within an invariant every call of a program
keeps it, whatever the others do within it, and unless a call fails the result is
as a postcondition says. A desk that serves such programs keeps the invariant,
and every answer it has given is as the postcondition of its request says.
-/
namespace Flux.Replies

open Interleavings Receipts

variable {S ε α κ : Type}

abbrev Answers (I : S → Prop) (post : α → Prop) (p : Program S ε α) : Prop :=
  Program.Obeys I False (fun _ s' => I s') post p

section Desks

variable (I : S → Prop) (post : κ → α → Prop)

def Settles (r : κ × Progress S ε α) : Prop :=
  match r.2 with
  | .running p => Answers I (post r.1) p
  | .answered a => post r.1 a
  | .lost => True

structure Honest (d : Desk S ε κ α) : Prop where
  state : I d.state
  requests : ∀ r ∈ d.requests, Settles I post r

variable {I post} {d : Desk S ε κ α}

theorem Settles.interrupted {r : κ × Progress S ε α} (h : Settles I post r) :
    Settles I post (r.1, r.2.interrupted) := by
  obtain ⟨k, progress⟩ := r
  cases progress with
  | running p => trivial
  | answered a => exact h
  | lost => trivial

theorem Honest.accept (h : Honest I post d) {k : κ} {p : Program S ε α}
    (hp : Answers I (post k) p) : Honest I post (d.accept k p) := by
  unfold Desk.accept
  split
  · refine ⟨h.state, fun r hr => ?_⟩
    rcases List.mem_append.mp hr with hold | hnew
    · exact h.requests r hold
    · rw [List.mem_singleton.mp hnew]
      exact hp
  · exact h

theorem Honest.interrupt (h : Honest I post d) : Honest I post d.interrupt := by
  refine ⟨h.state, fun r hr => ?_⟩
  obtain ⟨r₀, hr₀, rfl⟩ := List.mem_map.mp hr
  exact (h.requests r₀ hr₀).interrupted

theorem Honest.renew (h : Honest I post d) {f : S → S} (hf : I (f d.state)) :
    Honest I post (d.renew f) :=
  ⟨hf, h.interrupt.requests⟩

/-- One request has moved on. -/
theorem Honest.moved (h : Honest I post d) {s : S} (hs : I s) (i : ℕ) {r : κ × Progress S ε α}
    (hr : Settles I post r) :
    Honest I post { d with state := s, requests := d.requests.set i r } := by
  refine ⟨hs, fun q hq => ?_⟩
  rcases List.mem_or_eq_of_mem_set hq with hold | rfl
  · exact h.requests q hold
  · exact hr

theorem Honest.advance (h : Honest I post d) (i : ℕ) : Honest I post (d.advance i) := by
  unfold Desk.advance
  split
  · rename_i k a hget
    have hanswer : post k a := h.requests _ (List.mem_of_getElem? hget)
    exact h.moved h.state i hanswer
  · rename_i k β op next hget
    split
    · exact h.interrupt
    · rename_i s b hop
      have hrunning : Answers I (post k) (.call op next) :=
        h.requests _ (List.mem_of_getElem? hget)
      obtain ⟨hs, hnext⟩ := (hrunning d.state h.state).2 s b hop
      exact h.moved hs i hnext
  · exact h

end Desks

end Flux.Replies
