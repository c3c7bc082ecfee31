import Mathlib.Data.List.AList

/-!
Finite maps with executable lookup. A map is an association list whose keys
are distinct, so two entries for one key cannot be built. The order of the
entries carries no meaning: results about a map are stated through `get`.
-/
namespace Flux.FiniteMap

def FMap (K V : Type) : Type := AList (fun _ : K => V)

namespace FMap

variable {K V W : Type}

instance : Inhabited (FMap K V) := ⟨(∅ : AList (fun _ : K => V))⟩

instance [DecidableEq K] [DecidableEq V] : DecidableEq (FMap K V) :=
  inferInstanceAs (DecidableEq (AList (fun _ : K => V)))

def empty : FMap K V := (∅ : AList (fun _ : K => V))

def keys (m : FMap K V) : List K := AList.keys m

theorem keys_nodup (m : FMap K V) : m.keys.Nodup := AList.keys_nodup m

@[simp] theorem keys_empty : (empty : FMap K V).keys = [] := rfl

variable [DecidableEq K]

def get (m : FMap K V) (k : K) : Option V := AList.lookup k m

def set (m : FMap K V) (k : K) (v : V) : FMap K V := AList.insert k v m

def del (m : FMap K V) (k : K) : FMap K V := AList.erase k m

@[simp] theorem get_empty (k : K) : (empty : FMap K V).get k = none :=
  AList.lookup_empty k

@[simp] theorem get_set_self (m : FMap K V) (k : K) (v : V) : (m.set k v).get k = some v :=
  AList.lookup_insert m

@[simp] theorem get_set_ne (m : FMap K V) (v : V) {k k' : K} (h : k' ≠ k) :
    (m.set k v).get k' = m.get k' :=
  AList.lookup_insert_ne h

theorem get_set (m : FMap K V) (k k' : K) (v : V) :
    (m.set k v).get k' = if k' = k then some v else m.get k' := by
  split
  · rename_i h
    rw [h, get_set_self]
  · rename_i h
    exact get_set_ne m v h

@[simp] theorem get_del_self (m : FMap K V) (k : K) : (m.del k).get k = none :=
  AList.lookup_erase k m

@[simp] theorem get_del_ne (m : FMap K V) {k k' : K} (h : k' ≠ k) :
    (m.del k).get k' = m.get k' :=
  AList.lookup_erase_ne h

theorem mem_keys_iff (m : FMap K V) (k : K) : k ∈ m.keys ↔ ∃ v, m.get k = some v := by
  rw [← Option.isSome_iff_exists]
  exact (AList.mem_keys.symm.trans AList.lookup_isSome.symm)

theorem not_mem_keys_iff (m : FMap K V) (k : K) : k ∉ m.keys ↔ m.get k = none := by
  rw [mem_keys_iff, ← Option.isSome_iff_exists]
  simp

theorem keys_set (m : FMap K V) (k : K) (v : V) : (m.set k v).keys = k :: m.keys.erase k :=
  AList.keys_insert m

theorem mem_keys_set (m : FMap K V) (k k' : K) (v : V) :
    k' ∈ (m.set k v).keys ↔ k' = k ∨ k' ∈ m.keys :=
  AList.mem_insert m

/-- What a loop writes that gives each key a value of its own. -/
theorem get_foldl_set {A : Type} (key : A → K) (value : K → V) (items : List A) (m : FMap K V)
    (k : K) :
    (items.foldl (fun m a => m.set (key a) (value (key a))) m).get k =
      if k ∈ items.map key then some (value k) else m.get k := by
  induction items generalizing m with
  | nil => simp
  | cons a rest ih =>
    rw [List.foldl_cons, ih, get_set, List.map_cons]
    by_cases hrest : k ∈ rest.map key
    · simp only [hrest, List.mem_cons, or_true, ↓reduceIte]
    · simp only [hrest, List.mem_cons, or_false, ↓reduceIte]
      split
      · rename_i hk
        rw [hk]
      · rfl

def alter (m : FMap K V) (k : K) (f : V → V) : FMap K V :=
  match m.get k with
  | some v => m.set k (f v)
  | none => m

theorem get_alter_self (m : FMap K V) (k : K) (f : V → V) :
    (m.alter k f).get k = (m.get k).map f := by
  unfold alter
  cases h : m.get k with
  | none => simp [h]
  | some v => simp

theorem get_alter_ne (m : FMap K V) (f : V → V) {k k' : K} (h : k' ≠ k) :
    (m.alter k f).get k' = m.get k' := by
  unfold alter
  cases m.get k with
  | none => rfl
  | some v => exact get_set_ne m (f v) h

def mapValues (f : K → V → W) (m : FMap K V) : FMap K W :=
  ⟨m.entries.map (Sigma.map id f), List.NodupKeys.map₂ f m.entries m.nodupKeys⟩

theorem get_mapValues (f : K → V → W) (m : FMap K V) (k : K) :
    (m.mapValues f).get k = (m.get k).map (f k) :=
  List.dlookup_map₂ k

omit [DecidableEq K] in
theorem mapValues_mapValues {X : Type} (g : K → W → X) (f : K → V → W) (m : FMap K V) :
    (m.mapValues f).mapValues g = m.mapValues (fun k v => g k (f k v)) :=
  AList.ext (List.map_map ..)

end FMap

def get2 {A B V : Type} [DecidableEq A] [DecidableEq B] (m : FMap A (FMap B V)) (a : A) (b : B) :
    Option V :=
  (m.get a).bind (fun inner => inner.get b)

def set2 {A B V : Type} [DecidableEq A] [DecidableEq B] (m : FMap A (FMap B V)) (a : A) (b : B)
    (v : V) : FMap A (FMap B V) :=
  m.set a (((m.get a).getD FMap.empty).set b v)

section TwoLevel

variable {A B V : Type} [DecidableEq A] [DecidableEq B]

@[simp] theorem get2_empty (a : A) (b : B) : get2 (FMap.empty : FMap A (FMap B V)) a b = none := by
  simp [get2]

@[simp] theorem get2_set2_self (m : FMap A (FMap B V)) (a : A) (b : B) (v : V) :
    get2 (set2 m a b v) a b = some v := by
  simp [get2, set2]

theorem get2_set2_ne (m : FMap A (FMap B V)) (v : V) {a a' : A} {b b' : B}
    (h : (a', b') ≠ (a, b)) : get2 (set2 m a b v) a' b' = get2 m a' b' := by
  unfold get2 set2
  by_cases ha : a' = a
  · subst ha
    have hb : b' ≠ b := fun hb => h (by rw [hb])
    cases hm : m.get a' with
    | none => simp [hb]
    | some inner => simp [hb]
  · rw [FMap.get_set_ne _ _ ha]

end TwoLevel

end Flux.FiniteMap
