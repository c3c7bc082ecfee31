import Flux.Protocol
import Flux.TCPTransport
import Flux.WhiteSpace

/-!
How a follower reads back a response of the broker. A success response whose
payload holds no newline and does not end in white space gives that payload,
whatever bars it contains.
-/
namespace Flux.ResponseLines

open Cuts GoStrings Protocol TCPTransport WhiteSpace

theorem newline_not_mem {s : Str} (h : SpaceFree s) : (10 : UInt8) ∉ s := by
  intro hmem
  obtain ⟨front, back, rfl⟩ := List.append_of_mem hmem
  exact h [10] (by decide) ⟨front, back, by simp⟩

theorem space_not_mem {s : Str} (h : SpaceFree s) : (32 : UInt8) ∉ s := by
  intro hmem
  obtain ⟨front, back, rfl⟩ := List.append_of_mem hmem
  exact h [32] (by decide) ⟨front, back, by simp⟩

structure EndsClear (word : Str) : Prop where
  clear : ∃ front letter back, word = front ++ letter :: back ∧
    (∀ space ∈ spaces, letter ∉ space) ∧ SpaceFree back

theorem EndsClear.append {word : Str} (h : EndsClear word) (front : Str) :
    EndsClear (front ++ word) := by
  obtain ⟨before, letter, back, rfl, hletter, hback⟩ := h
  exact ⟨front ++ before, letter, back, by simp, hletter, hback⟩

theorem EndsClear.not_suffix {word : Str} (h : EndsClear word) (space : Str)
    (hspace : space ∈ spaces) : ¬ space <:+ word := by
  obtain ⟨front, letter, back, rfl, hletter, hback⟩ := h
  intro hsuffix
  rcases Nat.lt_or_ge back.length space.length with hlong | hshort
  · have hinside : letter :: back <:+ space :=
      List.suffix_of_suffix_length_le ⟨front, rfl⟩ hsuffix (by simp; omega)
    exact hletter space hspace (hinside.subset (List.mem_cons_self ..))
  · have hpart : space <:+ back :=
      List.suffix_of_suffix_length_le hsuffix ⟨front ++ [letter], by simp⟩ hshort
    exact hback space hspace hpart.isInfix

/-- Trimming a line takes off its newline only. -/
theorem trimSpace_line (letter : UInt8) (rest : Str) (hletter : ∀ space ∈ spaces, letter ∉ space)
    (hend : EndsClear (letter :: rest)) :
    trimSpace (letter :: rest ++ [10]) = letter :: rest := by
  have hleft : trimLeft (letter :: rest ++ [10]) = letter :: rest ++ [10] := by
    refine dropRunes_eq_self ?_
    intro space hspace hstart
    obtain ⟨first, more, rfl⟩ := List.exists_cons_of_ne_nil (spaces_ne_nil hspace)
    rw [List.cons_append, List.cons_prefix_cons] at hstart
    exact hletter _ hspace (hstart.1 ▸ List.mem_cons_self ..)
  have hfind : (spaces.map List.reverse).find?
      (fun w => w.isPrefixOf (10 :: (letter :: rest).reverse)) = some [10] := by
    simp [spaces, List.find?, List.isPrefixOf]
  have hright : dropRunes (spaces.map List.reverse) 0 (letter :: rest).reverse =
      (letter :: rest).reverse := by
    refine dropRunes_eq_self ?_
    intro w hw hstart
    obtain ⟨space, hspace, rfl⟩ := List.mem_map.mp hw
    exact hend.not_suffix space hspace (List.reverse_prefix.mp hstart)
  rw [trimSpace, hleft, trimRight, List.reverse_append, List.reverse_singleton,
    List.singleton_append, dropRunes, hfind]
  simp only [List.length_singleton, Nat.sub_self, hright, List.reverse_reverse]

def okLine (correlationID payload : Str) : Str :=
  lit "V1" ++ 124 :: (correlationID ++ 124 :: (lit "OK" ++ 124 :: payload))

theorem ok_eq_okLine (correlationID : Str) {payload : Str} (h : payload ≠ []) :
    ok correlationID payload = okLine correlationID payload ++ [10] := by
  have hbar : lit "|OK|" = 124 :: (lit "OK" ++ [124]) := by decide
  simp [ok, h, okLine, version, hbar]

/-- A follower reads back the payload of a success. -/
theorem receive_ok (seq : ℕ) {payload : Str} (hclear : EndsClear payload)
    (hnewline : (10 : UInt8) ∉ payload) :
    receive (ok (itoa seq) payload) = .ok (okLine (itoa seq) payload) := by
  have hne : payload ≠ [] := by
    obtain ⟨front, letter, back, rfl, -, -⟩ := hclear
    simp
  have hno : (10 : UInt8) ∉ okLine (itoa seq) payload := by
    have hitoa := itoa_not_mem seq 10 (by decide) (by decide)
    have hversion : (10 : UInt8) ∉ lit "V1" := by decide
    have hok : (10 : UInt8) ∉ lit "OK" := by decide
    simp [okLine, hitoa, hnewline, hversion, hok]
  have hend : EndsClear (okLine (itoa seq) payload) := by
    have := hclear.append (lit "V1" ++ 124 :: (itoa seq ++ 124 :: (lit "OK" ++ [124])))
    simpa [okLine] using this
  rw [ok_eq_okLine _ hne, receive, cut_letter_append 10 _ [] hno]
  dsimp only
  exact congrArg Except.ok (trimSpace_line 86 _ (by decide) hend)

theorem parseOKPayload_okLine (seq : ℕ) (payload : Str) :
    parseOKPayload (okLine (itoa seq) payload) = .ok payload := by
  have hitoa := itoa_not_mem seq 124 (by decide) (by decide)
  have hsplit : (okLine (itoa seq) payload).splitOn 124 =
      lit "V1" :: itoa seq :: lit "OK" :: payload.splitOn 124 := by
    rw [okLine, List.splitOn_append_cons_self_of_not_mem (by decide),
      List.splitOn_append_cons_self_of_not_mem hitoa,
      List.splitOn_append_cons_self_of_not_mem (by decide)]
  have hok : lit "OK" ≠ lit "ERR" := by decide
  simp only [parseOKPayload, hsplit, hok, ↓reduceIte, ne_eq, not_true_eq_false, join,
    List.intercalate_splitOn]

end Flux.ResponseLines
