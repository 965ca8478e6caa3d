/-!
# Cutting at a separator

A list is cut at each separator into pieces that hold none, one piece more than there are separators. Nothing is lost: the
pieces can be joined again (`intercalate_cut`). Pieces that hold no separator are got back by cutting what they were joined to
(`cut_append_cons`).
-/

namespace TxnBench.Text

variable {α : Type} [DecidableEq α]

/-- The pieces between separators. -/
def cut (sep : α) : List α → List (List α)
  | [] => [[]]
  | c :: rest =>
    if c = sep then [] :: cut sep rest
    else
      match cut sep rest with
      | [] => [[c]]
      | piece :: pieces => (c :: piece) :: pieces

/-- There is at least one piece. -/
theorem cut_ne_nil (sep : α) (l : List α) : cut sep l ≠ [] := by
  cases l with
  | nil => exact List.cons_ne_nil _ _
  | cons c rest =>
    rw [cut]
    split
    · exact List.cons_ne_nil _ _
    · split <;> exact List.cons_ne_nil _ _

/-- The pieces joined with separators are what was cut. -/
theorem intercalate_cut (sep : α) (l : List α) : [sep].intercalate (cut sep l) = l := by
  induction l with
  | nil => rfl
  | cons c rest ih =>
    obtain ⟨piece, pieces, h⟩ := List.exists_cons_of_ne_nil (cut_ne_nil sep rest)
    rw [h] at ih
    rw [cut, h]
    split
    · rename_i hc
      rw [List.intercalate_cons_cons, ih, hc]
      rfl
    · cases pieces with
      | nil => simpa [List.intercalate] using ih
      | cons next pieces =>
        rw [List.intercalate_cons_cons] at ih ⊢
        rw [← ih]
        rfl

/-- What holds no separator is one piece. -/
theorem cut_of_not_mem {sep : α} {piece : List α} (h : sep ∉ piece) : cut sep piece = [piece] := by
  induction piece with
  | nil => rfl
  | cons c rest ih =>
    simp only [List.mem_cons, not_or] at h
    rw [cut, if_neg (Ne.symm h.1), ih h.2]

/-- A piece in front of a separator is the first piece. -/
theorem cut_append_cons {sep : α} {piece : List α} (h : sep ∉ piece) (rest : List α) :
    cut sep (piece ++ sep :: rest) = piece :: cut sep rest := by
  induction piece with
  | nil => simp [cut]
  | cons c tail ih =>
    simp only [List.mem_cons, not_or] at h
    rw [List.cons_append, cut, if_neg (Ne.symm h.1), ih h.2]

/-- Pieces that hold no separator are got back, if there are any. -/
theorem cut_intercalate {sep : α} {pieces : List (List α)} (hne : pieces ≠ []) (h : ∀ piece ∈ pieces, sep ∉ piece) :
    cut sep ([sep].intercalate pieces) = pieces := by
  induction pieces with
  | nil => exact absurd rfl hne
  | cons piece rest ih =>
    have hpiece := h piece List.mem_cons_self
    cases rest with
    | nil => simpa [List.intercalate] using cut_of_not_mem hpiece
    | cons next rest =>
      rw [List.intercalate_cons_cons, List.append_assoc, List.singleton_append, cut_append_cons hpiece,
        ih (List.cons_ne_nil _ _) fun other hother => h other (List.mem_cons_of_mem piece hother)]

omit [DecidableEq α] in
/-- What stands in joined pieces is the separator or stands in a piece. -/
theorem mem_of_mem_intercalate {sep c : α} {pieces : List (List α)} (h : c ∈ [sep].intercalate pieces) :
    c = sep ∨ ∃ piece ∈ pieces, c ∈ piece := by
  induction pieces with
  | nil => cases h
  | cons piece rest ih =>
    cases rest with
    | nil => exact Or.inr ⟨piece, List.mem_cons_self, by simpa [List.intercalate] using h⟩
    | cons next rest =>
      rw [List.intercalate_cons_cons, List.append_assoc, List.singleton_append] at h
      rcases List.mem_append.mp h with h | h
      · exact Or.inr ⟨piece, List.mem_cons_self, h⟩
      · rcases List.mem_cons.mp h with rfl | h
        · exact Or.inl rfl
        · obtain rfl | ⟨other, hother, hc⟩ := ih h
          · exact Or.inl rfl
          · exact Or.inr ⟨other, List.mem_cons_of_mem piece hother, hc⟩

/-- Pieces that hold no separator, with one after each, are got back with an empty piece after them. -/
theorem cut_flatMap {sep : α} {pieces : List (List α)} (h : ∀ piece ∈ pieces, sep ∉ piece) :
    cut sep (pieces.flatMap (· ++ [sep])) = pieces ++ [[]] := by
  induction pieces with
  | nil => rfl
  | cons piece rest ih =>
    rw [List.flatMap_cons, List.append_assoc, List.singleton_append, cut_append_cons (h piece List.mem_cons_self),
      ih fun other hother => h other (List.mem_cons_of_mem piece hother)]
    rfl

end TxnBench.Text
