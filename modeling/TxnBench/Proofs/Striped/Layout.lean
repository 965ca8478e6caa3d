import Mathlib.Algebra.Ring.Int.Defs
import Mathlib.Algebra.Ring.Nat
import Mathlib.Data.List.Basic
import Mathlib.Order.Fin.Basic
import TxnBench.Collection.Striped
import TxnBench.Proofs.Replay

/-!
# The layout of the striped collection

What the small operations on stripes do to the word and to the entries of each stripe: setting a word, taking stripes
(`acquire`), giving them back (`release`), and writing entries. A state is its clock with the word and the entries of each
stripe (`ext_stripes`), so everything later is said through these three.
-/

namespace TxnBench.Striped

variable {K V : Type} [Ord K] {n : Nat}

/-- Two states with the same clock, words and entries are the same. -/
theorem ext_stripes {s s' : Striped K V n} (hc : s.clock = s'.clock) (hw : ∀ i, s.word i = s'.word i)
    (he : ∀ i, s.entries i = s'.entries i) : s = s' := by
  obtain ⟨c, v⟩ := s
  obtain ⟨c', v'⟩ := s'
  simp only at hc
  subst hc
  have hv : v = v' := by
    apply Vector.ext
    intro i hi
    have h1 := hw ⟨i, hi⟩
    have h2 := he ⟨i, hi⟩
    simp only [word, entries, Fin.getElem_fin] at h1 h2
    exact (Stripe.mk.injEq ..).mpr ⟨h1, h2⟩
  rw [hv]

/-! ## Stripes with words -/

/-- Stripes, each with the word that `f` has for it. -/
def withWords (f : Fin n → StripeWord) (stripes : List (Fin n)) : Held n :=
  stripes.map fun i => (i, f i)

@[simp] theorem map_fst_withWords (f : Fin n → StripeWord) (l : List (Fin n)) : (withWords f l).map Prod.fst = l := by
  simp [withWords, Function.comp_def]

/-- A stripe among stripes with words has its own, and no other stripe has one. -/
theorem lookup_withWords (f : Fin n → StripeWord) (l : List (Fin n)) (j : Fin n) :
    (withWords f l).lookup j = if j ∈ l then some (f j) else none := by
  split
  · rename_i h
    exact List.lookup_graph f h
  · rename_i h
    apply List.lookup_eq_none_iff.mpr
    intro p hp
    obtain ⟨i, hi, rfl⟩ := List.mem_map.mp hp
    exact bne_iff_ne.mpr fun e => h (e ▸ hi)

/-! ## Stripes held in ascending order -/

/-- Whether stripes are held in ascending order, each of them once. -/
def Held.Ascending (held : Held n) : Prop :=
  held.Pairwise fun a b => a.1 < b.1

/-- What is held before a place lies below the stripe there, and what is held from the place on does not. -/
theorem Held.Ascending.split {held : Held n} (h : held.Ascending) {m : Nat} (hm : m < held.length) :
    (∀ p ∈ held.take m, p.1 < held[m].1) ∧ ∀ p ∈ held.drop m, held[m].1 ≤ p.1 := by
  have hdrop : held.drop m = held[m] :: held.drop (m + 1) := List.drop_eq_getElem_cons hm
  have hsplit : (held.take m ++ held.drop m).Pairwise fun a b => a.1 < b.1 := by
    rwa [List.take_append_drop]
  obtain ⟨-, hback, hfront⟩ := List.pairwise_append.mp hsplit
  rw [hdrop] at hback hfront ⊢
  refine ⟨fun p hp => hfront p hp held[m] List.mem_cons_self, fun p hp => ?_⟩
  rcases List.mem_cons.mp hp with rfl | hp
  · exact le_refl _
  · exact le_of_lt ((List.pairwise_cons.mp hback).1 p hp)

/-- A search among stripes that are held in ascending order finds a stripe if it is one of them. -/
theorem search_eq_lookup {held : Held n} (h : held.Ascending) (i : Fin n) : search held i = held.lookup i := by
  fun_induction search held i with
  | case1 => rfl
  | case2 w => simp
  | case3 j w hne => simp [List.lookup_cons, beq_eq_false_iff_ne.mpr (Ne.symm hne)]
  | case4 a b rest half hhalf hlt ih =>
    -- The stripe lies below the middle, so it is not in the half that begins there.
    have hback : ((a :: b :: rest).drop half).lookup i = none := List.lookup_eq_none_iff.mpr fun p hp =>
      bne_iff_ne.mpr (ne_of_lt (lt_of_lt_of_le hlt ((h.split hhalf).2 p hp)))
    rw [ih (List.Pairwise.sublist (List.take_sublist half _) h)]
    conv_rhs => rw [← List.take_append_drop half (a :: b :: rest), List.lookup_append, hback, Option.or_none]
  | case5 a b rest half hhalf hle ih =>
    have hfront : ((a :: b :: rest).take half).lookup i = none := List.lookup_eq_none_iff.mpr fun p hp =>
      bne_iff_ne.mpr (ne_of_gt (lt_of_lt_of_le ((h.split hhalf).1 p hp) (not_lt.mp hle)))
    rw [ih (List.Pairwise.sublist (List.drop_sublist half _) h)]
    conv_rhs => rw [← List.take_append_drop half (a :: b :: rest), List.lookup_append, hfront, Option.none_or]

/-! ## Setting words -/

@[simp] theorem clock_setWord (s : Striped K V n) (i : Fin n) (w : StripeWord) : (s.setWord i w).clock = s.clock :=
  rfl

theorem word_setWord (s : Striped K V n) (i j : Fin n) (w : StripeWord) :
    (s.setWord i w).word j = if i = j then w else s.word j := by
  simp only [word, setWord, Fin.getElem_fin, Vector.getElem_set, Fin.ext_iff]
  split <;> rfl

@[simp] theorem entries_setWord (s : Striped K V n) (i j : Fin n) (w : StripeWord) :
    (s.setWord i w).entries j = s.entries j := by
  simp only [entries, setWord, Fin.getElem_fin, Vector.getElem_set]
  split
  · rename_i h
    simp only [h]
  · rfl

@[simp] theorem clock_release (s : Striped K V n) (held : Held n) : (s.release held).clock = s.clock := by
  induction held generalizing s with
  | nil => rfl
  | cons h rest ih => exact ih _

@[simp] theorem entries_release (s : Striped K V n) (held : Held n) (j : Fin n) :
    (s.release held).entries j = s.entries j := by
  induction held generalizing s with
  | nil => rfl
  | cons h rest ih => exact (ih _).trans (entries_setWord s h.1 j h.2)

/-- Stripes given back have the words they are given back with. -/
theorem word_release (s : Striped K V n) {held : Held n} (hd : (held.map Prod.fst).Nodup) (j : Fin n) :
    (s.release held).word j = (held.lookup j).getD (s.word j) := by
  induction held generalizing s with
  | nil => rfl
  | cons h rest ih =>
    obtain ⟨hn, hrest⟩ := List.nodup_cons.mp hd
    have hstep := ih (s.setWord h.1 h.2) hrest
    rw [word_setWord] at hstep
    rw [List.lookup_cons]
    by_cases e : h.1 = j
    · subst e
      have hl : rest.lookup h.1 = none := List.lookup_eq_none_iff.mpr fun p hp => by
        simp only [bne_iff_ne, ne_eq]
        exact fun e => hn (e ▸ List.mem_map_of_mem hp)
      rw [hl, if_pos rfl] at hstep
      rw [beq_self_eq_true]
      exact hstep
    · rw [if_neg e] at hstep
      have hb : (j == h.1) = false := beq_eq_false_iff_ne.mpr fun e' => e e'.symm
      rw [hb]
      exact hstep

/-- Stripes given back have the words they are given back with, and no other word changes. -/
theorem word_release_withWords (s : Striped K V n) (f : Fin n → StripeWord) {l : List (Fin n)} (hd : l.Nodup) (j : Fin n) :
    (s.release (withWords f l)).word j = if j ∈ l then f j else s.word j := by
  rw [word_release _ (by rwa [map_fst_withWords]), lookup_withWords]
  split <;> rfl

/-! ## Taking stripes -/

/-- The state with stripes taken. -/
def lockAll (s : Striped K V n) (stripes : List (Fin n)) : Striped K V n :=
  stripes.foldl (fun s i => s.setWord i { s.word i with locked := true }) s

@[simp] theorem clock_lockAll (s : Striped K V n) (l : List (Fin n)) : (s.lockAll l).clock = s.clock := by
  induction l generalizing s with
  | nil => rfl
  | cons i rest ih => exact ih _

@[simp] theorem entries_lockAll (s : Striped K V n) (l : List (Fin n)) (j : Fin n) :
    (s.lockAll l).entries j = s.entries j := by
  induction l generalizing s with
  | nil => rfl
  | cons i rest ih => exact (ih _).trans (entries_setWord s i j _)

theorem word_lockAll (s : Striped K V n) (l : List (Fin n)) (j : Fin n) :
    (s.lockAll l).word j = if j ∈ l then { s.word j with locked := true } else s.word j := by
  induction l generalizing s with
  | nil => simp [lockAll]
  | cons i rest ih =>
    have hstep := ih (s.setWord i { s.word i with locked := true })
    rw [word_setWord] at hstep
    change (lockAll _ rest).word j = _
    rw [hstep]
    by_cases e : i = j
    · subst e
      simp
    · simp only [if_neg e, List.mem_cons, show ¬j = i from fun h => e h.symm, false_or]

/-- Stripes that nobody holds are all taken, one after another. -/
theorem acquire_append (s : Striped K V n) (held : Held n) {l : List (Fin n)} (rest : List (Fin n)) (hd : l.Nodup)
    (hu : ∀ i ∈ l, (s.word i).locked = false) :
    s.acquire held (l ++ rest) = (s.lockAll l).acquire (held ++ withWords s.word l) rest := by
  induction l generalizing s held with
  | nil => simp [lockAll, withWords]
  | cons i l ih =>
    obtain ⟨hi, hl⟩ := List.nodup_cons.mp hd
    have hsame : ∀ j ∈ l, (s.setWord i { s.word i with locked := true }).word j = s.word j := by
      intro j hj
      have hne : i ≠ j := fun e => hi (e ▸ hj)
      rw [word_setWord, if_neg hne]
    have hstep := ih (s.setWord i { s.word i with locked := true }) (held ++ [(i, s.word i)]) hl fun j hj => by
      rw [hsame j hj]
      exact hu j (List.mem_cons_of_mem i hj)
    have hwords : withWords (s.setWord i { s.word i with locked := true }).word l = withWords s.word l :=
      List.map_congr_left fun j hj => by rw [hsame j hj]
    rw [List.cons_append, acquire, if_neg (by rw [hu i List.mem_cons_self]; exact Bool.false_ne_true), hstep, hwords]
    simp [lockAll, withWords]

/-- When nobody holds any of the stripes asked for, they are all taken. -/
theorem acquire_of_unlocked (s : Striped K V n) {l : List (Fin n)} (hd : l.Nodup)
    (hu : ∀ i ∈ l, (s.word i).locked = false) : s.acquire [] l = (s.lockAll l, withWords s.word l, none) := by
  have h := s.acquire_append [] [] hd hu
  rw [List.append_nil, List.nil_append] at h
  exact h

/-- When somebody holds one of the stripes asked for, those before the first such are taken. -/
theorem acquire_of_locked (s : Striped K V n) {l : List (Fin n)} (hd : l.Nodup) {i : Fin n}
    (hf : l.find? (fun i => (s.word i).locked) = some i) :
    ∃ taken, taken.Nodup ∧ s.acquire [] l = (s.lockAll taken, withWords s.word taken, some i) := by
  obtain ⟨hi, taken, rest, rfl, hu⟩ := List.find?_eq_some_iff_append.mp hf
  obtain ⟨ht, -, hne⟩ := List.nodup_append.mp hd
  have hnot : i ∉ taken := fun h => hne i h i List.mem_cons_self rfl
  refine ⟨taken, ht, ?_⟩
  rw [s.acquire_append [] (i :: rest) ht fun j hj => by simpa using hu j hj, List.nil_append, acquire,
    word_lockAll, if_neg hnot, if_pos hi]

/-- To give stripes back with the words they had undoes the taking. -/
theorem release_lockAll (s : Striped K V n) {l : List (Fin n)} (hd : l.Nodup) :
    (s.lockAll l).release (withWords s.word l) = s := by
  apply ext_stripes
  · simp
  · intro j
    rw [word_release_withWords _ _ hd, word_lockAll]
    split <;> rfl
  · simp

/-- Stripes that are asked for in ascending order are held in that order: each one taken lies above those held before it. -/
theorem acquire_ascending (s : Striped K V n) (held : Held n) (l : List (Fin n)) (h : (held.map Prod.fst ++ l).Pairwise (· < ·)) :
    (s.acquire held l).2.1.Ascending := by
  induction l generalizing s held with
  | nil =>
    rw [List.append_nil] at h
    exact List.pairwise_map.mp h
  | cons i rest ih =>
    unfold acquire
    split
    · exact List.pairwise_map.mp (List.pairwise_append.mp h).1
    · apply ih
      rwa [List.map_append, List.append_assoc]

/-- A commit judges a stripe it has taken by the word from before. -/
theorem wordBefore_lockAll (s : Striped K V n) {l : List (Fin n)} (h : (withWords s.word l).Ascending) (j : Fin n) :
    (s.lockAll l).wordBefore (withWords s.word l) j = s.word j := by
  rw [wordBefore, search_eq_lookup h, lookup_withWords, word_lockAll]
  split <;> rfl

/-! ## Writing entries -/

variable [Std.TransOrd K] (place : K → Fin n)

@[simp] theorem clock_writeAll (s : Striped K V n) (writes : List (K × Option V)) :
    (s.writeAll place writes).clock = s.clock := by
  induction writes generalizing s with
  | nil => rfl
  | cons w rest ih => exact ih _

@[simp] theorem word_writeAll (s : Striped K V n) (writes : List (K × Option V)) (j : Fin n) :
    (s.writeAll place writes).word j = s.word j := by
  induction writes generalizing s with
  | nil => rfl
  | cons w rest ih =>
    refine (ih _).trans ?_
    simp only [word, writeEntry, Fin.getElem_fin, Vector.getElem_set]
    split
    · rename_i h
      simp only [h]
    · rfl

theorem entries_writeEntry (s : Striped K V n) (k : K) (v : Option V) (j : Fin n) :
    (s.writeEntry place k v).entries j = if place k = j then (s.entries j).write k v else s.entries j := by
  simp only [entries, writeEntry, Fin.getElem_fin, Vector.getElem_set, Fin.ext_iff]
  split
  · rename_i h
    simp only [h]
  · rfl

/-- A stripe receives the writes to its own keys, in their order. -/
theorem entries_writeAll (s : Striped K V n) (writes : List (K × Option V)) (j : Fin n) :
    (s.writeAll place writes).entries j = (s.entries j).writeAll (writes.filter fun w => place w.1 = j) := by
  induction writes generalizing s with
  | nil => rfl
  | cons w rest ih =>
    refine (ih _).trans ?_
    rw [entries_writeEntry]
    by_cases e : place w.1 = j
    · simp [e, Contents.writeAll]
    · simp [e]

/-- When the writes of a map are carried out, in whatever order, a stripe has its own keys as they were written, and the others
as they were. -/
theorem getElem?_entries_writeAll [Std.LawfulEqOrd K] [DecidableEq K] (s : Striped K V n) {w : Contents K (Option V)}
    {writes : List (K × Option V)} (h : writes.Perm w.toList) (i : Fin n) (k : K) :
    ((s.writeAll place writes).entries i)[k]? =
      if place k = i then w[k]?.getD (s.entries i)[k]? else (s.entries i)[k]? := by
  have hown : (writes.filter fun e => place e.1 = i).Perm (w.filter fun k _ => place k = i).toList := by
    rw [Std.ExtTreeMap.toList_filter]
    exact h.filter _
  rw [entries_writeAll, Contents.getElem?_writeAll _ hown, Std.ExtTreeMap.getElem?_filter']
  cases w[k]? with
  | none => simp
  | some v => by_cases hplace : place k = i <;> simp [hplace, Option.filter_some]

/-- Where there is nothing to write, a stripe has what it had: at a key that is not written, and at a key of another stripe. -/
theorem getElem?_entries_writeAll_of_not_mem [Std.LawfulEqOrd K] [DecidableEq K] (s : Striped K V n)
    {w : Contents K (Option V)} {writes : List (K × Option V)} (h : writes.Perm w.toList) {i : Fin n} {k : K}
    (hk : k ∉ w ∨ place k ≠ i) : ((s.writeAll place writes).entries i)[k]? = (s.entries i)[k]? := by
  rw [getElem?_entries_writeAll place s h]
  split
  · rename_i hplace
    have hnone : w[k]? = none := Std.ExtTreeMap.getElem?_eq_none (hk.resolve_right fun hne => hne hplace)
    rw [hnone, Option.getD_none]
  · rfl

end TxnBench.Striped
