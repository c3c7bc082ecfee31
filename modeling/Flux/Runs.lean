import Mathlib.Data.List.Nodup

/-!
Runs of a deterministic machine whose inputs are guarded by the state they
meet. The rules package the inductions over runs: an invariant, possibly counted
by the inputs so far, a preorder that every step follows, and outputs that are
never repeated because each step uses up what it puts out.
-/
namespace Flux.Runs

variable {S A O : Type*} (step : S → A → S) (allowed : S → A → Prop) {s : S} {inputs : List A}
  {bound n : ℕ}

def run (s : S) (inputs : List A) : S := inputs.foldl step s

/-- Every input is allowed in the state it meets. -/
def Valid : S → List A → Prop
  | _, [] => True
  | s, a :: rest => allowed s a ∧ Valid (step s a) rest

instance decidableValid [∀ s a, Decidable (allowed s a)] :
    ∀ (s : S) (inputs : List A), Decidable (Valid step allowed s inputs)
  | _, [] => .isTrue trivial
  | s, a :: rest =>
      have := decidableValid (step s a) rest
      inferInstanceAs (Decidable (allowed s a ∧ Valid step allowed (step s a) rest))

@[simp] theorem run_nil (s : S) : run step s [] = s := rfl

@[simp] theorem run_cons (s : S) (a : A) (rest : List A) :
    run step s (a :: rest) = run step (step s a) rest := rfl

theorem run_append (s : S) (front back : List A) :
    run step s (front ++ back) = run step (run step s front) back :=
  List.foldl_append

theorem valid_append (s : S) (front back : List A) :
    Valid step allowed s (front ++ back) ↔
      Valid step allowed s front ∧ Valid step allowed (run step s front) back := by
  induction front generalizing s with
  | nil => simp [Valid]
  | cons a rest ih => simp [Valid, ih, and_assoc]

section Invariants

variable {step allowed}

theorem valid_mem (h : Valid step allowed s inputs) {a : A} (ha : a ∈ inputs) :
    ∃ s', allowed s' a := by
  induction inputs generalizing s with
  | nil => simp at ha
  | cons b rest ih =>
    rcases List.mem_cons.mp ha with rfl | hmem
    · exact ⟨s, h.1⟩
    · exact ih h.2 hmem

/-- What every allowed step keeps holds after every valid run. -/
theorem run_invariant {I : S → Prop} (hstep : ∀ s a, I s → allowed s a → I (step s a)) (hs : I s)
    (hvalid : Valid step allowed s inputs) : I (run step s inputs) := by
  induction inputs generalizing s with
  | nil => exact hs
  | cons a rest ih => exact ih (hstep s a hs hvalid.1) hvalid.2

theorem valid_of_forall (h : ∀ a ∈ inputs, ∀ s, allowed s a) : Valid step allowed s inputs := by
  induction inputs generalizing s with
  | nil => trivial
  | cons a rest ih =>
    exact ⟨h a (List.mem_cons_self ..) s, ih (fun b hb => h b (List.mem_cons_of_mem _ hb))⟩

theorem Valid.and_forall {P : A → Prop} (h : ∀ a ∈ inputs, P a)
    (hvalid : Valid step allowed s inputs) :
    Valid step (fun s a => P a ∧ allowed s a) s inputs := by
  induction inputs generalizing s with
  | nil => trivial
  | cons a rest ih =>
    exact ⟨⟨h a (List.mem_cons_self ..), hvalid.1⟩,
      ih (fun b hb => h b (List.mem_cons_of_mem _ hb)) hvalid.2⟩

/-- A preorder that every allowed step follows relates the ends of a run. -/
theorem run_related {I : S → Prop} {R : S → S → Prop} (hrefl : ∀ s, R s s)
    (htrans : ∀ s s' s'', R s s' → R s' s'' → R s s'')
    (hstep : ∀ s a, I s → allowed s a → I (step s a) ∧ R s (step s a)) (hs : I s)
    (hvalid : Valid step allowed s inputs) : R s (run step s inputs) := by
  refine (run_invariant (I := fun s' => I s' ∧ R s s') (fun s' a h ha => ?_) ⟨hs, hrefl s⟩ hvalid).2
  obtain ⟨hnext, hrel⟩ := hstep s' a h.1 ha
  exact ⟨hnext, htrans _ _ _ h.2 hrel⟩

/-- An invariant that may depend on the number of inputs, below a bound on it. -/
theorem run_counted {I : ℕ → S → Prop}
    (hstep : ∀ n s a, n + 1 < bound → I n s → allowed s a → I (n + 1) (step s a)) (hs : I n s)
    (hvalid : Valid step allowed s inputs) (hbound : n + inputs.length < bound) :
    I (n + inputs.length) (run step s inputs) := by
  induction inputs generalizing n s with
  | nil => exact hs
  | cons a rest ih =>
    rw [List.length_cons] at hbound ⊢
    have hnext := hstep n s a (by omega) hs hvalid.1
    have := ih hnext hvalid.2 (by omega)
    rwa [show n + 1 + rest.length = n + (rest.length + 1) by omega] at this

/-- A quantity that no allowed step lowers is not lowered by a run. -/
theorem run_monotone {I : ℕ → S → Prop} (f : S → Int)
    (hstep : ∀ n s a, n + 1 < bound → I n s → allowed s a →
      I (n + 1) (step s a) ∧ f s ≤ f (step s a)) (hs : I n s)
    (hvalid : Valid step allowed s inputs) (hbound : n + inputs.length < bound) :
    f s ≤ f (run step s inputs) := by
  refine (run_counted (I := fun n s' => I n s' ∧ f s ≤ f s') (fun n s' a hn h ha => ?_)
    ⟨hs, Int.le_refl _⟩ hvalid hbound).2
  obtain ⟨hnext, hle⟩ := hstep n s' a hn h.1 ha
  exact ⟨hnext, Int.le_trans h.2 hle⟩

end Invariants

def outputs (out : S → A → Option O) : S → List A → List O
  | _, [] => []
  | s, a :: rest => (out s a).toList ++ outputs out (step s a) rest

section Outputs

variable {step allowed} {out : S → A → Option O} {I : ℕ → S → Prop} {bound : ℕ}
  {free : S → O → Prop}
  (hstep : ∀ n s a, n + 1 < bound → I n s → allowed s a → I (n + 1) (step s a) ∧
    (∀ o, free (step s a) o → free s o) ∧
    (∀ o, out s a = some o → free s o ∧ ¬ free (step s a) o))

include hstep

theorem outputs_free {n : ℕ} {s : S} (hs : I n s) (hvalid : Valid step allowed s inputs)
    (hbound : n + inputs.length < bound) : ∀ o ∈ outputs step out s inputs, free s o := by
  induction inputs generalizing n s with
  | nil => simp [outputs]
  | cons a rest ih =>
    rw [List.length_cons] at hbound
    obtain ⟨hnext, hshrink, hout⟩ := hstep n s a (by omega) hs hvalid.1
    intro o ho
    rcases List.mem_append.mp ho with hnow | hlater
    · exact (hout o (by simpa using hnow)).1
    · exact hshrink o (ih hnext hvalid.2 (by omega) o hlater)

/-- Steps that use up what they put out never put anything out twice. -/
theorem outputs_nodup {n : ℕ} {s : S} (hs : I n s) (hvalid : Valid step allowed s inputs)
    (hbound : n + inputs.length < bound) : (outputs step out s inputs).Nodup := by
  induction inputs generalizing n s with
  | nil => exact List.nodup_nil
  | cons a rest ih =>
    rw [List.length_cons] at hbound
    obtain ⟨hnext, -, hout⟩ := hstep n s a (by omega) hs hvalid.1
    have hrest := ih hnext hvalid.2 (by omega)
    cases ho : out s a with
    | none => simpa [outputs, ho] using hrest
    | some o =>
      have hnot : o ∉ outputs step out (step s a) rest := fun hmem =>
        (hout o ho).2 (outputs_free hstep hnext hvalid.2 (by omega) o hmem)
      simpa [outputs, ho] using And.intro hnot hrest

end Outputs

/-- Runs from related states put out the same. -/
theorem outputs_related {step : S → A → S} {out : S → A → Option O} {R : ℕ → S → S → Prop}
    {P : A → Prop}
    (hstep : ∀ n s s' a, n + 1 < bound → R n s s' → P a →
      R (n + 1) (step s a) (step s' a) ∧ out s' a = out s a) {s' : S} (h : R n s s')
    (hinputs : ∀ a ∈ inputs, P a) (hbound : n + inputs.length < bound) :
    outputs step out s' inputs = outputs step out s inputs := by
  induction inputs generalizing n s s' with
  | nil => rfl
  | cons a rest ih =>
    rw [List.length_cons] at hbound
    obtain ⟨hnext, hout⟩ := hstep n s s' a (by omega) h (hinputs a (List.mem_cons_self ..))
    rw [outputs, outputs, hout,
      ih hnext (fun b hb => hinputs b (List.mem_cons_of_mem _ hb)) (by omega)]

end Flux.Runs
