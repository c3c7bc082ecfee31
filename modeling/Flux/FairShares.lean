import Mathlib.Data.Int.CardIntervalMod
import Mathlib.Data.List.Range

/-!
Two ways to share the numbers below `n` among `k` receivers: dealing them out in
turn, and cutting them into consecutive slices. Both give every number to exactly
one receiver, and the sizes of any two shares differ by at most one.
-/
namespace Flux.FairShares

structure Fair (n k : ℕ) (share : ℕ → List ℕ) : Prop where
  total : ∀ i, i < n → ∃ j, j < k ∧ i ∈ share j
  below : ∀ j, j < k → ∀ i ∈ share j, i < n
  disjoint : ∀ i j j', j < k → j' < k → i ∈ share j → i ∈ share j' → j = j'
  nodup : ∀ j, (share j).Nodup
  balanced : ∀ j j', j < k → j' < k → (share j).length ≤ (share j').length + 1

def dealt (n k j : ℕ) : List ℕ := (List.range n).filter (fun i => i % k = j)

def shareSize (n k j : ℕ) : ℕ := n / k + if j < n % k then 1 else 0

def shareStart (n k j : ℕ) : ℕ := j * (n / k) + min j (n % k)

def sliced (n k j : ℕ) : List ℕ := List.range' (shareStart n k j) (shareSize n k j)

theorem countP_range (p : ℕ → Prop) [DecidablePred p] (n : ℕ) :
    (List.range n).countP (fun i => p i) = Nat.count p n := by
  induction n with
  | zero => rfl
  | succ n ih => simp [List.range_succ, ih, Nat.count_succ, List.countP_cons]

theorem length_dealt (n k j : ℕ) (hj : j < k) : (dealt n k j).length = shareSize n k j := by
  have hcount : (dealt n k j).length = Nat.count (fun i => i ≡ j [MOD k]) n := by
    rw [← countP_range, dealt, ← List.countP_eq_length_filter]
    apply List.countP_congr
    intro i _
    simp [Nat.ModEq, Nat.mod_eq_of_lt hj]
  rw [hcount, Nat.count_modEq_card n (by omega : 0 < k), Nat.mod_eq_of_lt hj, shareSize]

theorem shareSize_balanced (n k j j' : ℕ) : shareSize n k j ≤ shareSize n k j' + 1 := by
  unfold shareSize
  split <;> omega

theorem dealt_fair (n k : ℕ) (hk : 0 < k) : Fair n k (dealt n k) where
  total i hi := ⟨i % k, Nat.mod_lt i hk, by simp [dealt, hi]⟩
  below j _ i hi := List.mem_range.mp (List.mem_filter.mp hi).1
  disjoint i j j' _ _ hi hi' := by
    have h := (List.mem_filter.mp hi).2
    have h' := (List.mem_filter.mp hi').2
    simp only [decide_eq_true_eq] at h h'
    omega
  nodup j := List.nodup_range.filter _
  balanced j j' hj hj' := by
    rw [length_dealt n k j hj, length_dealt n k j' hj']
    exact shareSize_balanced n k j j'

theorem shareStart_succ (n k j : ℕ) :
    shareStart n k (j + 1) = shareStart n k j + shareSize n k j := by
  unfold shareStart shareSize
  rw [Nat.add_mul]
  split <;> omega

theorem shareStart_last (n k : ℕ) (hk : 0 < k) : shareStart n k k = n := by
  have hmod := Nat.mod_lt n hk
  rw [shareStart, Nat.min_eq_right (by omega)]
  exact Nat.div_add_mod n k

theorem shareStart_mono (n k : ℕ) {j j' : ℕ} (h : j ≤ j') :
    shareStart n k j ≤ shareStart n k j' := by
  induction h with
  | refl => exact Nat.le_refl _
  | step _ ih =>
    rw [shareStart_succ]
    omega

theorem mem_sliced (n k j i : ℕ) :
    i ∈ sliced n k j ↔ shareStart n k j ≤ i ∧ i < shareStart n k (j + 1) := by
  rw [sliced, List.mem_range'_1, shareStart_succ]

/-- Every number below the start of a slice is in an earlier slice. -/
theorem exists_slice (n k m i : ℕ) (hi : i < shareStart n k m) :
    ∃ j, j < m ∧ i ∈ sliced n k j := by
  induction m with
  | zero => simp [shareStart] at hi
  | succ m ih =>
    by_cases hlow : i < shareStart n k m
    · obtain ⟨j, hj, hmem⟩ := ih hlow
      exact ⟨j, by omega, hmem⟩
    · exact ⟨m, by omega, (mem_sliced n k m i).mpr ⟨by omega, hi⟩⟩

theorem slice_unique {n k i j j' : ℕ} (h : i ∈ sliced n k j) (h' : i ∈ sliced n k j') :
    ¬ j < j' := by
  intro hlt
  rw [mem_sliced] at h h'
  have := shareStart_mono n k (show j + 1 ≤ j' by omega)
  omega

theorem sliced_fair (n k : ℕ) (hk : 0 < k) : Fair n k (sliced n k) where
  total i hi := exists_slice n k k i (by rwa [shareStart_last n k hk])
  below j hj i hi := by
    have hupper := ((mem_sliced n k j i).mp hi).2
    have := shareStart_mono n k (show j + 1 ≤ k by omega)
    rw [shareStart_last n k hk] at this
    omega
  disjoint i j j' _ _ hi hi' := by
    have h := slice_unique hi hi'
    have h' := slice_unique hi' hi
    omega
  nodup j := List.nodup_range' ..
  balanced j j' _ _ := by
    simp only [sliced, List.length_range']
    exact shareSize_balanced n k j j'

end Flux.FairShares
