import Flux.ClusterRuntime

/-!
Contracts of the broker's programs, by the loops they are made of. A loop keeps
an invariant that speaks of the items still ahead of it.
-/
namespace Flux.BrokerContracts

open GoRuntime GoStrings ClusterMetadata Interleavings BrokerNode ClusterRuntime

variable {α β : Type} {rely guarantee : Broker → Broker → Prop}

/-- A loop of calls ends with the first that fails. -/
theorem upholds_attemptAll {call : α → Handler (Except Str β)} (I : List α → Broker → Prop)
    (failed : Broker → Prop)
    (hcall : ∀ a rest b, I (a :: rest) b →
      Program.Upholds rely guarantee (fun b' r =>
        match r with
        | .error _ => failed b'
        | .ok _ => I rest b') (call a) b)
    {items : List α} {b : Broker} (hb : I items b) (count : ℕ) :
    Program.Upholds rely guarantee (fun b' r =>
      match r with
      | .error _ => failed b'
      | .ok _ => I [] b') (attemptAll call items count) b := by
  induction items generalizing b count with
  | nil => exact hb
  | cons a rest ih =>
    refine Program.upholds_bind (hcall a rest b hb) (fun b' r hr => ?_)
    cases r with
    | error e => exact hr
    | ok c => exact ih hr (count + 1)

/-- What every call of the loop keeps, the loop keeps. -/
theorem upholds_attemptAll_inv {call : α → Handler (Except Str β)} {I : Broker → Prop}
    {items : List α}
    (hcall : ∀ a ∈ items, ∀ b, I b →
      Program.Upholds rely guarantee (fun b' _ => I b') (call a) b)
    {b : Broker} (hb : I b) (count : ℕ) :
    Program.Upholds rely guarantee (fun b' _ => I b') (attemptAll call items count) b := by
  induction items generalizing b count with
  | nil => exact hb
  | cons a rest ih =>
    refine Program.upholds_bind (hcall a (List.mem_cons_self ..) b hb) (fun b' r hr => ?_)
    cases r with
    | error e => exact hr
    | ok c => exact ih (fun a ha => hcall a (List.mem_cons_of_mem _ ha)) hr (count + 1)

/-- A loop that ends well has made one call for each item. -/
theorem yields_attemptAll_count (call : α → Handler (Except Str β)) (items : List α) (b : Broker)
    (count : ℕ) : Program.Yields (fun _ r => ∀ n, r = .ok n → n = count + items.length)
      (attemptAll call items count) b := by
  induction items generalizing b count with
  | nil =>
    intro n hn
    cases hn
    rfl
  | cons a rest ih =>
    refine Program.upholds_bind (Program.yields_trivial _ b) (fun b' r _ => ?_)
    cases r with
    | error e =>
      intro n hn
      cases hn
    | ok c =>
      refine (ih b' (count + 1)).weaken (fun _ r' hr n hn => ?_)
      rw [hr n hn, List.length_cons]
      omega

theorem upholds_forEach {body : α → Handler Unit} (I : List α → Broker → Prop)
    (hbody : ∀ a rest b, I (a :: rest) b →
      Program.Upholds rely guarantee (fun b' _ => I rest b') (body a) b)
    {items : List α} {b : Broker} (hb : I items b) :
    Program.Upholds rely guarantee (fun b' _ => I [] b') (forEach body items) b := by
  induction items generalizing b with
  | nil => exact hb
  | cons a rest ih =>
    exact Program.upholds_bind (hbody a rest b hb) (fun b' _ hb' => ih hb')

theorem returns_attemptAll {call : α → Handler (Except Str β)}
    (hcall : ∀ a b, Program.Returns (call a) b) (items : List α) (b : Broker) (count : ℕ) :
    Program.Returns (attemptAll call items count) b := by
  induction items generalizing b count with
  | nil => exact ⟨b, _, rfl⟩
  | cons a rest ih =>
    refine Program.returns_bind (Program.yields_trivial _ b) (hcall a b) (fun b' r _ => ?_)
    cases r with
    | error e => exact ⟨b', _, rfl⟩
    | ok c => exact ih b' (count + 1)

section Calls

variable {post : Broker → α → Prop} {b : Broker}

theorem yields_onController {op : RaftMetadataStore → RaftMetadataStore × α}
    {store : RaftMetadataStore} {a : α} (hop : op b.controller = (store, a))
    (h : post { b with controller := store } a) : Program.Yields post (onController op) b := by
  refine Program.yields_modify ?_
  dsimp only
  rw [hop]
  exact h

theorem yields_compute {result : Except Panic α} (h : ∀ a, result = .ok a → post b a) :
    Program.Yields post (compute result) b := by
  refine Program.yields_atomically (fun u a hop => ?_)
  cases result with
  | error e => cases hop
  | ok a' =>
    cases hop
    exact h a rfl

end Calls

def after (p : Handler α) (b : Broker) : Broker :=
  match p.run b with
  | .ok (b', _) => b'
  | .error _ => b

theorem after_of_yields {p : Handler α} {b : Broker} {P : Broker → Prop}
    (h : Program.Yields (fun b' _ => P b') p b) (hb : P b) : P (after p b) := by
  unfold after
  split
  · exact h.run ‹_›
  · exact hb

end Flux.BrokerContracts
