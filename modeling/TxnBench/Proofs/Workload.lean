import TxnBench.Bench.Run
import TxnBench.Config
import TxnBench.Proofs.Workers.Counters
import TxnBench.Random.Generator

/-!
# Workloads

What a run is made from before any worker starts. Of parameters that are accepted and whose shares can be computed
(`Params.Feasible`) there is a composition, of exactly the tasks asked for (`Composition.exists_ofShares`), and a range of
keys (`KeyRange.exists_ofTasks`). Shuffling only puts tasks in another order (`perm_of_shuffle`), so a run has all its tasks.
`Params.draws` is everything a run draws from its source.
-/

namespace TxnBench

/-- What is asked of parameters: what a configuration is checked for, and that both shares of the tasks can be computed. -/
structure Params.Feasible (p : Params) : Prop where
  threads : p.threads ≠ 0
  shares : p.inserts.toNat + p.removes.toNat ≤ 100
  inserts : p.tasks.toNat * p.inserts.toNat < 2 ^ 64
  removes : p.tasks.toNat * p.removes.toNat < 2 ^ 64

/-- A configuration has the parameters it was asked for, and they were checked. -/
theorem Config.of_make {kind : CollectionKind} {p : Params} {runs : UInt64} {seed : Option UInt64} {c : Config}
    (h : make kind p runs seed = .ok c) :
    c.collection = kind ∧ c.params = p ∧ p.threads ≠ 0 ∧ p.inserts.toNat + p.removes.toNat ≤ 100 := by
  unfold make at h
  split at h
  · cases h
  · rename_i hthreads
    split at h
    · cases h
    · rename_i hshares
      cases h
      exact ⟨rfl, rfl, hthreads, Nat.le_of_not_lt hshares⟩

/-- The greater of two words is the greater number. -/
theorem Word.toNat_max (a b : UInt64) : (max a b).toNat = max a.toNat b.toNat := by
  change (if a ≤ b then b else a).toNat = if a.toNat ≤ b.toNat then b.toNat else a.toNat
  by_cases h : a ≤ b
  · rw [if_pos h, if_pos (UInt64.le_iff_toNat_le.mp h)]
  · rw [if_neg h, if_neg fun hle => h (UInt64.le_iff_toNat_le.mpr hle)]

/-- A configuration that was made has at least one run. -/
theorem Config.one_le_runs {kind : CollectionKind} {p : Params} {runs : UInt64} {seed : Option UInt64} {c : Config}
    (hc : make kind p runs seed = .ok c) : 1 ≤ c.runs.toNat := by
  have hmax : 1 ≤ (max runs 1).toNat := by
    rw [Word.toNat_max]
    exact Nat.le_max_right _ 1
  unfold make at hc
  split at hc
  · cases hc
  · split at hc
    · cases hc
    · cases hc
      exact hmax

/-- A configuration that was made is made again from what it has. -/
theorem Config.make_self {kind : CollectionKind} {p : Params} {runs : UInt64} {seed : Option UInt64} {c : Config}
    (hc : make kind p runs seed = .ok c) : make c.collection c.params c.runs c.seed = .ok c := by
  have hruns : max c.runs 1 = c.runs := by
    rw [← UInt64.toNat_inj, Word.toNat_max]
    exact Nat.max_eq_left (one_le_runs hc)
  obtain ⟨-, rfl, hthreads, hshares⟩ := of_make hc
  rw [make, if_neg hthreads, if_neg (Nat.not_lt.mpr hshares), hruns]

/-- The parameters of a configuration are feasible if their shares can be computed. -/
theorem Config.feasible {kind : CollectionKind} {p : Params} {runs : UInt64} {seed : Option UInt64} {c : Config}
    (h : make kind p runs seed = .ok c) (hi : p.tasks.toNat * p.inserts.toNat < 2 ^ 64)
    (hr : p.tasks.toNat * p.removes.toNat < 2 ^ 64) : p.Feasible := by
  obtain ⟨-, -, hthreads, hshares⟩ := of_make h
  exact ⟨hthreads, hshares, hi, hr⟩

/-! ## Compositions and ranges of keys -/

namespace Composition

/-- A share is computed if the product with the percentage fits in its word. -/
theorem exists_share {tasks : UInt64} {percent : UInt8} (h : tasks.toNat * percent.toNat < 2 ^ 64) :
    ∃ n, share tasks percent = .ok n ∧ n.toNat = tasks.toNat * percent.toNat / 100 := by
  have hpercent : percent.toUInt64.toNat = percent.toNat := UInt8.toNat_toUInt64 percent
  have htimes : Word.times tasks percent.toUInt64 = .ok (tasks * percent.toUInt64) := by
    refine if_pos ?_
    rw [hpercent]
    exact h
  have hexact := Word.times_eq_ok_iff.mp htimes
  refine ⟨tasks * percent.toUInt64 / 100, ?_, ?_⟩
  · simp only [share, htimes]
    rfl
  · rw [UInt64.toNat_div, ← hexact, hpercent]
    rfl

/-- A share faults if the product with the percentage does not fit in its word. -/
theorem share_eq_error {tasks : UInt64} {percent : UInt8} (h : 2 ^ 64 ≤ tasks.toNat * percent.toNat) :
    share tasks percent = .error (.overflow .mul) := by
  have htimes : Word.times tasks percent.toUInt64 = .error (.overflow .mul) := by
    rw [Word.times_eq_error_iff, UInt8.toNat_toUInt64]
    exact ⟨h, rfl⟩
  simp only [share, htimes, bind, Except.bind]

/-- A composition of shares that are no more than everything has both shares rounded down, and exactly the tasks asked for. -/
theorem exists_ofShares {tasks : UInt64} {inserts removes : UInt8} (h : inserts.toNat + removes.toNat ≤ 100)
    (hi : tasks.toNat * inserts.toNat < 2 ^ 64) (hr : tasks.toNat * removes.toNat < 2 ^ 64) :
    ∃ c, ofShares tasks inserts removes = .ok c ∧ c.inserts.toNat = tasks.toNat * inserts.toNat / 100 ∧
      c.removes.toNat = tasks.toNat * removes.toNat / 100 ∧
      c.inserts.toNat + c.removes.toNat + c.contains.toNat = tasks.toNat := by
  obtain ⟨i, hi, hi'⟩ := exists_share hi
  obtain ⟨r, hr, hr'⟩ := exists_share hr
  have hsum : i.toNat + r.toNat ≤ tasks.toNat := by
    have hall : tasks.toNat * (inserts.toNat + removes.toNat) ≤ tasks.toNat * 100 := Nat.mul_le_mul_left _ h
    rw [Nat.mul_add] at hall
    omega
  have hminus : ∀ {a b : UInt64}, b.toNat ≤ a.toNat → ∃ c, Word.minus a b = .ok c ∧ b.toNat + c.toNat = a.toNat :=
    fun {a b} hle => ⟨a - b, if_pos hle, Word.minus_eq_ok_iff.mp (if_pos hle)⟩
  obtain ⟨others, hothers, ho⟩ := hminus (a := tasks) (b := i) (by omega)
  obtain ⟨rest, hrest, hc⟩ := hminus (a := others) (b := r) (by omega)
  refine ⟨⟨i, r, rest⟩, ?_, hi', hr', ?_⟩
  · simp only [ofShares, if_neg (Nat.not_lt.mpr h), hi, hr, bind, Except.bind, pure, Except.pure, hothers, hrest]
  · simp only
    omega

/-- The tasks of a composition are counted in one word if there are as many as a word says. -/
theorem total_eq {c : Composition} {tasks : UInt64}
    (h : c.inserts.toNat + c.removes.toNat + c.contains.toNat = tasks.toNat) : c.total = .ok tasks := by
  have htasks := tasks.toNat_lt
  obtain ⟨first, hfirst⟩ := Word.exists_plus (a := c.inserts) (b := c.removes) (by omega)
  have hexact := Word.plus_eq_ok_iff.mp hfirst
  have hall : Word.plus first c.contains = .ok tasks := Word.plus_eq_ok_iff.mpr (by omega)
  simp only [total, hfirst, bind, Except.bind, hall]

theorem length_kinds (c : Composition) : c.kinds.length = c.inserts.toNat + c.removes.toNat + c.contains.toNat := by
  simp only [kinds, List.length_append, List.length_replicate]

end Composition

namespace Composition

variable {G : Type} [Source G] {c : Composition} {total : UInt64}

/-- Without room for the tasks, none is drawn. -/
theorem generate_of_no_room (htotal : c.total = .ok total) (range : KeyRange) (g : G)
    (hroom : Capacity.limit < total.toNat * Task.bytes) : c.generate range g = .error .capacity := by
  have hreserve : Capacity.reserve total.toNat Task.bytes = .error .capacity :=
    Capacity.reserve_eq_error_iff.mpr ⟨hroom, rfl⟩
  simp only [generate, htotal, bind, Except.bind, hreserve]

/-- With room for the tasks, they are those drawn kind by kind, and then put in order. -/
theorem generate_of_room (htotal : c.total = .ok total) {range : KeyRange} {drawn tasks : List Task} {g shuffling g' : G}
    (hdrawn : Task.drawAll range c.kinds g = some (drawn, shuffling)) (horder : shuffle drawn shuffling = some (tasks, g'))
    (hroom : total.toNat * Task.bytes ≤ Capacity.limit) : c.generate range g = .ok (some (tasks, g')) := by
  have hreserve : Capacity.reserve total.toNat Task.bytes = .ok () := Capacity.reserve_eq_ok_iff.mpr hroom
  simp only [generate, htotal, bind, Except.bind, hreserve, Option.bind, hdrawn, horder]
  rfl

end Composition

theorem toNat_initialEntries (tasks : UInt64) : (initialEntries tasks).toNat = tasks.toNat / 10 :=
  UInt64.toNat_div tasks 10

/-- There is a range of keys for any number of tasks. -/
theorem KeyRange.exists_ofTasks (tasks : UInt64) :
    ∃ range, ofTasks tasks = .ok range ∧ range.low = 1 ∧ range.high.toNat = max 1 (10 * (tasks.toNat / 10)) := by
  have htasks := tasks.toNat_lt
  have hentries := toNat_initialEntries tasks
  obtain ⟨keys, hkeys⟩ : ∃ keys, Word.times (initialEntries tasks) 10 = .ok keys := by
    refine ⟨initialEntries tasks * 10, if_pos ?_⟩
    change (initialEntries tasks).toNat * 10 < 2 ^ 64
    omega
  have hexact : (initialEntries tasks).toNat * 10 = keys.toNat := Word.times_eq_ok_iff.mp hkeys
  have hmax : (max keys 1).toNat = max keys.toNat 1 := Word.toNat_max keys 1
  have hle : (1 : UInt64).toNat ≤ (max keys 1).toNat := by
    rw [hmax]
    exact Nat.le_max_right _ _
  refine ⟨⟨1, max keys 1, hle⟩, ?_, rfl, ?_⟩
  · simp only [ofTasks, hkeys, bind, Except.bind]
    exact dif_pos hle
  · simp only [hmax]
    omega

/-! ## Draws -/

section Draws

variable {G : Type} [Source G]

/-- The task drawn for a kind is of that kind. -/
theorem Task.kind_of_draw {kind : TaskKind} {range : KeyRange} {task : Task} {g g' : G}
    (h : draw kind range g = some (task, g')) : task.kind = kind := by
  unfold draw at h
  obtain ⟨⟨key, g₁⟩, -, h⟩ := Option.bind_eq_some_iff.mp h
  cases kind <;>
  · cases h
    rfl

/-- What is drawn for one kind more. -/
theorem Task.drawAll_cons_eq_some_iff {kind : TaskKind} {kinds : List TaskKind} {range : KeyRange} {tasks : List Task}
    {g g' : G} :
    drawAll range (kind :: kinds) g = some (tasks, g') ↔
      ∃ task g₁ rest, draw kind range g = some (task, g₁) ∧ drawAll range kinds g₁ = some (rest, g') ∧
        tasks = task :: rest := by
  rw [drawAll]
  constructor
  · intro h
    obtain ⟨⟨task, g₁⟩, hfirst, h⟩ := Option.bind_eq_some_iff.mp h
    obtain ⟨⟨rest, g₂⟩, hrest, h⟩ := Option.bind_eq_some_iff.mp h
    cases h
    exact ⟨task, g₁, rest, hfirst, hrest, rfl⟩
  · rintro ⟨task, g₁, rest, hfirst, hrest, rfl⟩
    rw [hfirst]
    simp only [bind, Option.bind, hrest]
    rfl

/-- A task is drawn for every kind. -/
theorem Task.map_kind_of_drawAll {range : KeyRange} {kinds : List TaskKind} {tasks : List Task} {g g' : G}
    (h : drawAll range kinds g = some (tasks, g')) : tasks.map Task.kind = kinds := by
  induction kinds generalizing g tasks with
  | nil =>
    cases h
    rfl
  | cons kind kinds ih =>
    obtain ⟨task, g₁, rest, hfirst, hrest, rfl⟩ := drawAll_cons_eq_some_iff.mp h
    rw [List.map_cons, kind_of_draw hfirst, ih hrest]

/-- A swap puts the elements in another order. -/
theorem perm_swapIfInBounds {α : Type} (xs : Array α) (i j : Nat) : (xs.swapIfInBounds i j).toList.Perm xs.toList := by
  unfold Array.swapIfInBounds
  split
  · split
    · exact (Array.swap_perm ..).toList
    · exact List.Perm.refl _
  · exact List.Perm.refl _

theorem perm_of_shuffleFrom {α : Type} {n : Nat} {xs ys : Array α} {g g' : G}
    (h : shuffleFrom n xs g = some (ys, g')) : ys.toList.Perm xs.toList := by
  induction n generalizing xs g with
  | zero =>
    cases h
    exact List.Perm.refl _
  | succ n ih =>
    rw [shuffleFrom] at h
    obtain ⟨⟨j, g₁⟩, -, h⟩ := Option.bind_eq_some_iff.mp h
    exact (ih h).trans (perm_swapIfInBounds xs (n + 1) j)

/-- Shuffling puts the elements in another order. -/
theorem perm_of_shuffle {α : Type} {xs ys : List α} {g g' : G} (h : shuffle xs g = some (ys, g')) : ys.Perm xs := by
  unfold shuffle at h
  obtain ⟨⟨zs, g₁⟩, hshuffled, h⟩ := Option.bind_eq_some_iff.mp h
  cases h
  exact perm_of_shuffleFrom hshuffled

/-- What a run draws from its source. -/
structure Drawn (G : Type) where
  range : KeyRange
  /-- The tasks, in the order in which they are given to the workers. -/
  tasks : List Task
  /-- The source once the tasks are drawn. -/
  between : G
  /-- The entries put in place before the workload. -/
  entries : List Task
  /-- The source once everything is drawn. -/
  source : G

/-- Everything a run draws, one draw after another; `none` if a draw gives up. -/
def Params.draws (p : Params) (g : G) : Option (Drawn G) :=
  match KeyRange.ofTasks p.tasks, Composition.ofShares p.tasks p.inserts p.removes with
  | .ok range, .ok composition => do
    let (drawn, g) ← Task.drawAll range composition.kinds g
    let (tasks, between) ← shuffle drawn g
    let (entries, source) ← Task.drawAll range (List.replicate (initialEntries p.tasks).toNat .insert) between
    return { range, tasks, between, entries, source }
  | _, _ => none

/-- The draws of a run, one after another: a task for each kind of a composition of all tasks, the order of the tasks, and
the entries. -/
structure Draws (p : Params) (g : G) (d : Drawn G) (composition : Composition) (drawn : List Task) (shuffling : G) :
    Prop where
  range : KeyRange.ofTasks p.tasks = .ok d.range
  shares : Composition.ofShares p.tasks p.inserts p.removes = .ok composition
  total : composition.inserts.toNat + composition.removes.toNat + composition.contains.toNat = p.tasks.toNat
  tasks : Task.drawAll d.range composition.kinds g = some (drawn, shuffling)
  order : shuffle drawn shuffling = some (d.tasks, d.between)
  entries : Task.drawAll d.range (List.replicate (initialEntries p.tasks).toNat .insert) d.between =
    some (d.entries, d.source)

/-- What a run of feasible parameters has drawn. -/
theorem Params.of_draws {p : Params} (hp : p.Feasible) {g : G} {d : Drawn G} (h : p.draws g = some d) :
    ∃ composition drawn shuffling, Draws p g d composition drawn shuffling := by
  obtain ⟨range, hrange, -⟩ := KeyRange.exists_ofTasks p.tasks
  obtain ⟨composition, hcomposition, -, -, htotal⟩ := Composition.exists_ofShares hp.shares hp.inserts hp.removes
  unfold draws at h
  rw [hrange, hcomposition] at h
  obtain ⟨⟨drawn, g₁⟩, hdrawn, h⟩ := Option.bind_eq_some_iff.mp h
  obtain ⟨⟨tasks, between⟩, hshuffle, h⟩ := Option.bind_eq_some_iff.mp h
  obtain ⟨⟨entries, source⟩, hentries, h⟩ := Option.bind_eq_some_iff.mp h
  cases h
  exact ⟨composition, drawn, g₁, hrange, hcomposition, htotal, hdrawn, hshuffle, hentries⟩

/-- The tasks of a run are as many as asked for. -/
theorem Params.length_of_draws {p : Params} (hp : p.Feasible) {g : G} {d : Drawn G} (h : p.draws g = some d) :
    d.tasks.length = p.tasks.toNat := by
  obtain ⟨composition, drawn, shuffling, hd⟩ := of_draws hp h
  have hlength : drawn.length = composition.kinds.length := by
    rw [← Task.map_kind_of_drawAll hd.tasks, List.length_map]
  rw [(perm_of_shuffle hd.order).length_eq, hlength, Composition.length_kinds, hd.total]

/-! ## A source that stands still -/

/-- The source that hands out nothing but zeros. -/
def Stepping.still : Stepping :=
  ⟨0, 0⟩

/-- No draw refuses a zero. -/
theorem drawWith_still (bits bound zone tries : Nat) :
    Source.drawWith Source.number64 bits bound zone (tries + 1) Stepping.still = some (0, Stepping.still) ∧
      Source.drawWith Source.number32 bits bound zone (tries + 1) Stepping.still = some (0, Stepping.still) := by
  have hword64 : Source.number64 Stepping.still = (0, Stepping.still) := rfl
  have hword32 : Source.number32 Stepping.still = (0, Stepping.still) := rfl
  constructor
  · simp [Source.drawWith, hword64]
  · simp [Source.drawWith, hword32]

theorem draw_still (kind : TaskKind) (range : KeyRange) :
    ∃ task, Task.draw kind range Stepping.still = some (task, Stepping.still) := by
  have hdraw : ∃ key, range.draw Stepping.still = some (key, Stepping.still) := by
    unfold KeyRange.draw Source.drawWide
    split
    · exact ⟨_, rfl⟩
    · have hzero := (drawWith_still 64 range.size (Source.finestZone range.size) 0x3fffffffffffffff).1
      exact ⟨range.low + UInt64.ofNat 0, congrArg (· >>= _) hzero⟩
  obtain ⟨key, hkey⟩ := hdraw
  unfold Task.draw
  rw [hkey]
  cases kind <;> exact ⟨_, rfl⟩

theorem drawAll_still (range : KeyRange) (kinds : List TaskKind) :
    ∃ tasks, Task.drawAll range kinds Stepping.still = some (tasks, Stepping.still) := by
  induction kinds with
  | nil => exact ⟨[], rfl⟩
  | cons kind kinds ih =>
    obtain ⟨task, htask⟩ := draw_still kind range
    obtain ⟨rest, hrest⟩ := ih
    exact ⟨task :: rest, Task.drawAll_cons_eq_some_iff.mpr ⟨task, _, rest, htask, hrest, rfl⟩⟩

theorem drawIndex_still (bound : Nat) : ∃ j, Source.drawIndex bound Stepping.still = some (j, Stepping.still) := by
  unfold Source.drawIndex
  split
  · exact ⟨0, (drawWith_still 32 bound (Source.quickZone 32 bound) 0x3fffffffffffffff).2⟩
  · exact ⟨0, (drawWith_still 64 bound (Source.quickZone 64 bound) 0x3fffffffffffffff).1⟩

theorem shuffleFrom_still {α : Type} (n : Nat) (xs : Array α) :
    ∃ ys, shuffleFrom n xs Stepping.still = some (ys, Stepping.still) := by
  induction n generalizing xs with
  | zero => exact ⟨xs, rfl⟩
  | succ n ih =>
    obtain ⟨j, hj⟩ := drawIndex_still (n + 2)
    obtain ⟨ys, hys⟩ := ih (xs.swapIfInBounds (n + 1) j)
    refine ⟨ys, ?_⟩
    rw [shuffleFrom, hj]
    exact hys

theorem shuffle_still {α : Type} (xs : List α) : ∃ ys, shuffle xs Stepping.still = some (ys, Stepping.still) := by
  obtain ⟨ys, hys⟩ := shuffleFrom_still (xs.length - 1) xs.toArray
  refine ⟨ys.toList, ?_⟩
  unfold shuffle
  rw [hys]
  rfl

/-- For all feasible parameters there is a source whose draws do not give up. -/
theorem Params.draws_still {p : Params} (hp : p.Feasible) : (p.draws Stepping.still).isSome := by
  obtain ⟨range, hrange, -⟩ := KeyRange.exists_ofTasks p.tasks
  obtain ⟨composition, hcomposition, -⟩ := Composition.exists_ofShares hp.shares hp.inserts hp.removes
  obtain ⟨drawn, hdrawn⟩ := drawAll_still range composition.kinds
  obtain ⟨tasks, hshuffle⟩ := shuffle_still drawn
  obtain ⟨entries, hentries⟩ := drawAll_still range (List.replicate (initialEntries p.tasks).toNat .insert)
  have hdraws : p.draws Stepping.still = some ⟨range, tasks, Stepping.still, entries, Stepping.still⟩ := by
    simp only [draws, hrange, hcomposition, bind, Option.bind, hdrawn, hshuffle, hentries]
    rfl
  rw [hdraws]
  rfl

end Draws

end TxnBench
