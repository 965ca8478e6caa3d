import TxnBench.Proofs.Workload

/-!
# What is generated for a composition

A key that is drawn lies in its range (`KeyRange.le_of_draw`), so every task that is drawn is one of its kind for its range
(`Task.fits_of_draw`). The kinds of a composition are drawn one after another from one source, each using as many words as its
tasks need (`Task.drawAll_append_eq_some_iff`), and shuffling changes nothing but the order. So what is generated has exactly
the tasks of the composition (`Composition.generates_exactly`).
-/

namespace TxnBench

variable {G : Type} [Source G]

/-- The high part of the product of a word below `2 ^ bits` and a bound is below the bound. -/
theorem Source.drawWith_lt {next : G → Nat × G} {bits bound zone tries k : Nat} {g g' : G} (hnext : ∀ g, (next g).1 < 2 ^ bits)
    (hb : 0 < bound) (h : drawWith next bits bound zone tries g = some (k, g')) : k < bound := by
  induction tries generalizing g with
  | zero => cases h
  | succ tries ih =>
    simp only [drawWith] at h
    split at h
    · cases h
      rw [Nat.shiftRight_eq_div_pow]
      exact Nat.div_lt_of_lt_mul (Nat.mul_lt_mul_of_pos_right (hnext g) hb)
    · exact ih h

/-- What is drawn below a bound that a word can reach is below it. -/
theorem Source.drawWide_lt {bound k : Nat} {g g' : G} (hpos : 0 < bound) (h : drawWide bound g = some (k, g')) : k < bound := by
  have hword : ∀ g : G, (number64 g).1 < 2 ^ 64 := fun g => UInt64.toNat_lt _
  unfold drawWide at h
  split at h
  · rename_i hall
    cases h
    rw [hall]
    exact hword g
  · exact drawWith_lt hword hpos h

/-- A key that is drawn lies in its range. -/
theorem KeyRange.le_of_draw {range : KeyRange} {key : UInt64} {g g' : G} (h : range.draw g = some (key, g')) :
    range.low ≤ key ∧ key ≤ range.high := by
  obtain ⟨⟨offset, g₁⟩, hoffset, h⟩ := Option.bind_eq_some_iff.mp h
  cases h
  have hends := range.low_le_high
  have hhigh := range.high.toNat_lt
  have hlt : offset < range.high.toNat - range.low.toNat + 1 := Source.drawWide_lt (Nat.succ_pos _) hoffset
  have hexact : (range.low + UInt64.ofNat offset).toNat = range.low.toNat + offset := by
    rw [UInt64.toNat_add, UInt64.toNat_ofNat_of_lt' (show offset < 2 ^ 64 by omega)]
    exact Nat.mod_eq_of_lt (by omega)
  rw [UInt64.le_iff_toNat_le, UInt64.le_iff_toNat_le, hexact]
  omega

namespace Task

/-- A task is for a range if its key lies in it and only an insertion has a value. -/
structure Fits (range : KeyRange) (task : Task) : Prop where
  low_le : range.low ≤ task.key
  le_high : task.key ≤ range.high
  value : task.kind ≠ .insert → task.value = 0

/-- A task that is drawn is for its range. -/
theorem fits_of_draw {kind : TaskKind} {range : KeyRange} {task : Task} {g g' : G}
    (h : draw kind range g = some (task, g')) : task.Fits range := by
  unfold draw at h
  obtain ⟨⟨key, g₁⟩, hkey, h⟩ := Option.bind_eq_some_iff.mp h
  obtain ⟨hlow, hhigh⟩ := KeyRange.le_of_draw hkey
  cases kind with
  | insert =>
    cases h
    exact ⟨hlow, hhigh, fun hkind => absurd rfl hkind⟩
  | remove | contains =>
    cases h
    exact ⟨hlow, hhigh, fun _ => rfl⟩

theorem fits_of_drawAll {range : KeyRange} {kinds : List TaskKind} {tasks : List Task} {g g' : G}
    (h : drawAll range kinds g = some (tasks, g')) : ∀ task ∈ tasks, task.Fits range := by
  induction kinds generalizing g tasks with
  | nil =>
    cases h
    exact nofun
  | cons kind kinds ih =>
    obtain ⟨first, g₁, rest, hfirst, hrest, rfl⟩ := drawAll_cons_eq_some_iff.mp h
    intro task htask
    rcases List.mem_cons.mp htask with rfl | htask
    · exact fits_of_draw hfirst
    · exact ih hrest task htask

/-- Tasks of more kinds are drawn from what those before have left of the source. -/
theorem drawAll_append_eq_some_iff {range : KeyRange} {kinds more : List TaskKind} {tasks : List Task} {g g' : G} :
    drawAll range (kinds ++ more) g = some (tasks, g') ↔
      ∃ first g₁ rest, drawAll range kinds g = some (first, g₁) ∧ drawAll range more g₁ = some (rest, g') ∧
        tasks = first ++ rest := by
  induction kinds generalizing g tasks with
  | nil =>
    constructor
    · exact fun h => ⟨[], g, tasks, rfl, h, rfl⟩
    · rintro ⟨first, g₁, rest, hfirst, hrest, rfl⟩
      cases hfirst
      exact hrest
  | cons kind kinds ih =>
    rw [List.cons_append, drawAll_cons_eq_some_iff]
    constructor
    · rintro ⟨task, g₁, others, htask, hothers, rfl⟩
      obtain ⟨first, g₂, rest, hfirst, hrest, rfl⟩ := ih.mp hothers
      exact ⟨task :: first, g₂, rest, drawAll_cons_eq_some_iff.mpr ⟨task, g₁, first, htask, hfirst, rfl⟩, hrest, rfl⟩
    · rintro ⟨first, g₂, rest, hfirst, hrest, rfl⟩
      obtain ⟨task, g₁, others, htask, hothers, rfl⟩ := drawAll_cons_eq_some_iff.mp hfirst
      exact ⟨task, g₁, others ++ rest, htask, ih.mpr ⟨others, g₂, rest, hothers, hrest, rfl⟩, rfl⟩

end Task

namespace Composition

/-- How many tasks of one kind a composition has. -/
def count (c : Composition) : TaskKind → UInt64
  | .insert => c.inserts
  | .remove => c.removes
  | .contains => c.contains

theorem count_kinds (c : Composition) (kind : TaskKind) : c.kinds.count kind = (c.count kind).toNat := by
  cases kind <;> simp [kinds, count, List.count_replicate]

/-- The kinds of a composition are drawn one after another. -/
theorem exists_drawAll_kinds {c : Composition} {range : KeyRange} {drawn : List Task} {g shuffling : G}
    (h : Task.drawAll range c.kinds g = some (drawn, shuffling)) :
    ∃ inserted removed looked removing looking,
      Task.drawAll range (List.replicate c.inserts.toNat .insert) g = some (inserted, removing) ∧
      Task.drawAll range (List.replicate c.removes.toNat .remove) removing = some (removed, looking) ∧
      Task.drawAll range (List.replicate c.contains.toNat .contains) looking = some (looked, shuffling) ∧
      drawn = inserted ++ removed ++ looked := by
  obtain ⟨changed, looking, looked, hchanged, hlooked, rfl⟩ := Task.drawAll_append_eq_some_iff.mp h
  obtain ⟨inserted, removing, removed, hinserted, hremoved, rfl⟩ := Task.drawAll_append_eq_some_iff.mp hchanged
  exact ⟨inserted, removed, looked, removing, looking, hinserted, hremoved, hlooked, rfl⟩

/-- There is a range of keys for every number of tasks, and what is generated for a composition has exactly its tasks. Let the
tasks of the composition be countable in one word, let there be any range of keys, and let no draw from the source give up,
neither for the tasks nor for their order. If there is no room for the tasks in one list, nothing is drawn. Otherwise there are
as many tasks of each kind as the composition says; each has a key in the range and, unless it is an insertion, no value; and
they are, in another order, those drawn for all insertions, then for all removals and then for all lookups, each from what the
ones before have left of the source. The keys for a number of tasks go from one up to ten for every ten tasks. -/
theorem generates_exactly (c : Composition) (hcount : c.inserts.toNat + c.removes.toNat + c.contains.toNat < 2 ^ 64)
    (range : KeyRange) {drawn tasks : List Task} {g shuffling g' : G}
    (hdrawn : Task.drawAll range c.kinds g = some (drawn, shuffling)) (horder : shuffle drawn shuffling = some (tasks, g')) :
    let size := (c.inserts.toNat + c.removes.toNat + c.contains.toNat) * Task.bytes
    (∀ t, ∃ keys, KeyRange.ofTasks t = .ok keys) ∧
    (Capacity.limit < size → c.generate range g = .error .capacity) ∧
    (size ≤ Capacity.limit →
      c.generate range g = .ok (some (tasks, g')) ∧
      (∀ kind, (tasks.map Task.kind).count kind = (c.count kind).toNat) ∧
      (∀ task ∈ tasks, range.low ≤ task.key ∧ task.key ≤ range.high) ∧
      (∀ task ∈ tasks, task.kind ≠ .insert → task.value = 0) ∧
      (∃ inserted removed looked removing looking,
        Task.drawAll range (List.replicate c.inserts.toNat .insert) g = some (inserted, removing) ∧
        Task.drawAll range (List.replicate c.removes.toNat .remove) removing = some (removed, looking) ∧
        Task.drawAll range (List.replicate c.contains.toNat .contains) looking = some (looked, shuffling) ∧
        tasks.Perm (inserted ++ removed ++ looked)) ∧
      ∀ t, KeyRange.ofTasks t = .ok range →
        ∀ task ∈ tasks, 1 ≤ task.key.toNat ∧ task.key.toNat ≤ max 1 (10 * (t.toNat / 10))) := by
  intro size
  have htotal : c.total = .ok (UInt64.ofNat (c.inserts.toNat + c.removes.toNat + c.contains.toNat)) :=
    total_eq (UInt64.toNat_ofNat_of_lt' hcount).symm
  have hsize : (UInt64.ofNat (c.inserts.toNat + c.removes.toNat + c.contains.toNat)).toNat * Task.bytes = size := by
    rw [UInt64.toNat_ofNat_of_lt' hcount]
  refine ⟨?_, fun hroom => generate_of_no_room htotal range g (hsize ▸ hroom), fun hroom => ?_⟩
  · intro t
    obtain ⟨keys, hkeys, -⟩ := KeyRange.exists_ofTasks t
    exact ⟨keys, hkeys⟩
  · have hperm := perm_of_shuffle horder
    have hfits : ∀ task ∈ tasks, task.Fits range := fun task htask =>
      Task.fits_of_drawAll hdrawn task (hperm.mem_iff.mp htask)
    refine ⟨generate_of_room htotal hdrawn horder (hsize ▸ hroom), ?_, fun task htask => ?_, fun task htask => ?_, ?_, ?_⟩
    · intro kind
      rw [(hperm.map Task.kind).count_eq, Task.map_kind_of_drawAll hdrawn, count_kinds]
    · exact ⟨(hfits task htask).low_le, (hfits task htask).le_high⟩
    · exact (hfits task htask).value
    · obtain ⟨inserted, removed, looked, removing, looking, hinserted, hremoved, hlooked, rfl⟩ := exists_drawAll_kinds hdrawn
      exact ⟨inserted, removed, looked, removing, looking, hinserted, hremoved, hlooked, hperm⟩
    · intro t ht task htask
      obtain ⟨keys, hkeys, hlow, hhigh⟩ := KeyRange.exists_ofTasks t
      cases hkeys.symm.trans ht
      have hle := UInt64.le_iff_toNat_le.mp (hfits task htask).low_le
      have hle' := UInt64.le_iff_toNat_le.mp (hfits task htask).le_high
      rw [hlow] at hle
      rw [hhigh] at hle'
      exact ⟨hle, hle'⟩

/-- Seven tasks are generated with the keys for twenty-five: the first that is drawn comes last. -/
theorem first_drawn_comes_last :
    let c : Composition := ⟨3, 2, 2⟩
    let g : Stepping := ⟨0x2000000000000001, 0x3000000000000001⟩
    ∃ keys tasks g', KeyRange.ofTasks 25 = .ok keys ∧ c.generate keys g = .ok (some (tasks, g')) ∧
      tasks.map Task.kind = [.insert, .insert, .remove, .remove, .contains, .contains, .insert] ∧
      (tasks.map Task.kind).count .insert = 3 ∧
      ∀ task ∈ tasks, 1 ≤ task.key.toNat ∧ task.key.toNat ≤ max 1 (10 * (25 / 10)) := by
  intro c g
  have hkeys : KeyRange.ofTasks 25 = .ok ⟨1, 20, by decide⟩ := rfl
  have hdraws : ((Task.drawAll ⟨1, 20, by decide⟩ c.kinds g).bind fun d => shuffle d.1 d.2).isSome := by decide +kernel
  obtain ⟨⟨tasks, g'⟩, hdraws⟩ := Option.isSome_iff_exists.mp hdraws
  obtain ⟨⟨drawn, shuffling⟩, hdrawn, horder⟩ := Option.bind_eq_some_iff.mp hdraws
  obtain ⟨-, -, hroom⟩ := generates_exactly c (by decide) _ hdrawn horder
  obtain ⟨hgenerate, hkinds, -, -, -, hwithin⟩ := hroom (by decide)
  have hran : (c.generate ⟨1, 20, by decide⟩ g).toOption.join.map (fun d => d.1.map Task.kind) =
      some [.insert, .insert, .remove, .remove, .contains, .contains, .insert] := by decide +kernel
  rw [hgenerate] at hran
  exact ⟨_, tasks, g', hkeys, hgenerate, Option.some.inj hran, hkinds .insert, hwithin 25 hkeys⟩

/-- The tasks of a composition may be countable in one word and have no room in one list, and then there are none, though no draw
would give up. -/
theorem no_tasks_without_room :
    let c : Composition := ⟨1152921504606846976, 0, 0⟩
    let range : KeyRange := ⟨1, 1, by decide⟩
    c.inserts.toNat + c.removes.toNat + c.contains.toNat < 2 ^ 64 ∧
      (∃ drawn tasks, Task.drawAll range c.kinds Stepping.still = some (drawn, Stepping.still) ∧
        shuffle drawn Stepping.still = some (tasks, Stepping.still)) ∧
      c.generate range Stepping.still = .error .capacity ∧
      ¬∃ generated, c.generate range Stepping.still = .ok generated := by
  intro c range
  have htotal : c.total = .ok 1152921504606846976 := total_eq (by decide)
  have hgenerate : c.generate range Stepping.still = .error .capacity :=
    generate_of_no_room htotal range Stepping.still (by decide)
  obtain ⟨drawn, hdrawn⟩ := drawAll_still range c.kinds
  obtain ⟨tasks, htasks⟩ := shuffle_still drawn
  refine ⟨by decide, ⟨drawn, tasks, hdrawn, htasks⟩, hgenerate, ?_⟩
  rintro ⟨generated, h⟩
  cases hgenerate.symm.trans h

end Composition

end TxnBench
