import TxnBench.Proofs.Outcomes
import TxnBench.Proofs.Program.World

/-!
# Repeated runs

The program makes a new collection and a new random source for each run, and what it carries on from run to run is only what it
has printed, its record file and what the clock is going to say. So each of the runs of a seeded configuration is the run that a
command line for it alone would make (`runs_are_independent`): a report is the one its own seed yields (`Config.Yields`), and two
reports of one seed differ in the time alone.

All of this is for command lines that are accepted (`Asks`) in a world that has memory for the lists whose length is known from the
start (`World.Suffices`), and where a record file can be made (`World.CanMake`). The reports are themselves such a list, so there are
configurations with more runs than the address space could hold the reports of (`too_many_runs_break_off`).
-/

namespace TxnBench

/-! ## What the program needs -/

/-- The bytes of the lists of known length that the program keeps at one time: its reports, and beside them those of a run. -/
def Config.rooms (c : Config) : List Nat :=
  c.reportBytes :: c.params.rooms

namespace World

/-- Whether the machine refuses the program none of the lists it is asked for. -/
def Suffices (w : World) (c : Config) : Prop :=
  Capacity.refused w.memory 0 c.rooms = none

/-- Unless the reports are past the limit, the machine has memory for them, and beside them for the lists of a run. -/
theorem Suffices.beside {w : World} {c : Config} (h : w.Suffices c) (hlimit : c.reportBytes ≤ Capacity.limit) :
    Capacity.refused w.memory 0 [c.reportBytes] = none ∧ Capacity.refused w.memory c.reportBytes c.params.rooms = none := by
  obtain hpast | ⟨hreports, hrun⟩ := Capacity.refused_cons_eq_none_iff.mp h
  · exact absurd hlimit (Nat.not_le.mpr hpast)
  · rw [Nat.zero_add] at hrun
    exact ⟨Capacity.refused_cons_eq_none_iff.mpr (.inr ⟨hreports, rfl⟩), hrun⟩

/-- Whether a record file can be made under a name, and is not there yet. -/
def CanMake (w : World) (name : String) : Prop :=
  ∃ writer, (Records.openAt Tree.disk (Path.ofText name) w.tree).1 = .ok writer ∧
    w.tree.nodes[writer.handle.place]? = none

end World

namespace Records

variable {t : Tree} {output : Option String} {text : String} {out : Option (Writer Handle)}

/-- Whether a program has a record file with a text, and a writer at the end of it; a program may go without. -/
def Recording (t : Tree) (output : Option String) (text : String) : Option (Writer Handle) → Prop
  | none => output = none
  | some writer => ∃ name place, output = some name ∧ Holds t (Path.ofText name) place text writer

/-- A record that is added is at the end of the text then. -/
theorem Recording.add (h : Recording t output text out) (c : Config) (run : UInt64) (r : Report) :
    ∃ out' t', Records.add Tree.disk out c run r t = ((.ok (), out'), t') ∧
      Recording t' output (text ++ line (fields c run r)) out' := by
  cases out with
  | none => exact ⟨none, t, rfl, h⟩
  | some writer =>
    obtain ⟨name, place, rfl, hholds⟩ := h
    obtain ⟨writer', t', hadd, hholds'⟩ := hholds.add (fields c run r)
    refine ⟨some writer', t', ?_, name, place, rfl, hholds'⟩
    change (Writer.add Tree.disk writer (line (fields c run r)) >>= fun added => pure (added.1, some added.2)) t = _
    rw [bind_apply, hadd]
    rfl

theorem Recording.text? (h : Recording t output text out) : ∀ name ∈ output, t.text? (Path.ofText name) = some text := by
  rintro name rfl
  cases out with
  | none => cases h
  | some writer =>
    obtain ⟨name', place, hname, hholds⟩ := h
    cases hname
    exact hholds.file.text?

/-- A record file that is not there yet is made, and has the names of the fields in it. -/
theorem recording_of_openOut {w : World} (hmake : ∀ name ∈ output, w.CanMake name) :
    ∃ out t, Program.openOut World.host output w = (.ok out, { w with tree := t }) ∧
      Recording t output (line header) out := by
  cases output with
  | none => exact ⟨none, w.tree, rfl, rfl⟩
  | some name =>
    obtain ⟨writer, hopen, habsent⟩ := hmake name rfl
    exact ⟨some writer, _, Program.openOut_some (Prod.ext hopen rfl), name, _, rfl, holds_of_openAt hopen habsent⟩

/-- The fields of one of several runs are those of the run alone, but for its number and the time it took. -/
theorem fields_of_single (c : Config) (run : UInt64) (r : Report) (seed : Option UInt64) (elapsed : Duration) :
    fields c run r =
      ((fields { c with runs := 1, seed } 0 { r with elapsed }).set (header.idxOf "run") (toString run.toNat)).set
        (header.idxOf "runtime_sec") (Decimal.text r.elapsed.seconds) :=
  rfl

end Records

/-! ## One run -/

/-- Whether a run can have a report: its workers may take any time. -/
def Config.Yields (c : Config) (run : UInt64) (r : Report) : Prop :=
  ∃ seed elapsed fin, c.seedOf run = some seed ∧
    bench c.collection.collection c.params elapsed (Generator.keyed (Keystream.ofSeed seed)) = .ok fin ∧ fin.report = r

/-- Runs of one seed differ in the time they take. -/
theorem Config.Yields.eq_of_seed {c c' : Config} {run run' : UInt64} {r r' : Report} (h : c.Yields run r)
    (h' : c'.Yields run' r') (hcollection : c'.collection = c.collection) (hparams : c'.params = c.params)
    (hseed : c'.seedOf run' = c.seedOf run) : r' = { r with elapsed := r'.elapsed } := by
  obtain ⟨seed, elapsed, fin, hs, hbench, rfl⟩ := h
  obtain ⟨seed', elapsed', fin', hs', hbench', rfl⟩ := h'
  cases hs'.symm.trans (hseed.trans hs)
  obtain ⟨collection', params', runs', seed'⟩ := c'
  cases hcollection
  cases hparams
  have hsame := (Sequential.bench_elapsed elapsed elapsed').symm.trans hbench'
  rw [hbench] at hsame
  cases hsame
  rfl

section Consistency

variable {c : Config} {run seed : UInt64} {r : Report}

/-- A run whose draws do not give up has a report if there is room for its lists, and the report is consistent. -/
theorem Config.exists_bench (hp : c.params.Feasible) (hd : (c.params.draws (Generator.keyed (Keystream.ofSeed seed))).isSome)
    (hroom : ∀ bytes ∈ c.params.rooms, bytes ≤ Capacity.limit) (elapsed : Duration) :
    ∃ fin, bench c.collection.collection c.params elapsed (Generator.keyed (Keystream.ofSeed seed)) = .ok fin ∧
      fin.report.isConsistent := by
  obtain ⟨d, hd⟩ := Option.isSome_iff_exists.mp hd
  obtain ⟨fin, hfin, -, hconsistent, -⟩ :=
    c.collection.steady.bench c.collection.truthful c.collection.rests_empty hp hd hroom elapsed
  exact ⟨fin, hfin, hconsistent⟩

/-- So every report that such a run can have is consistent. -/
theorem Config.Yields.isConsistent (h : c.Yields run r) (hseed : c.seedOf run = some seed) (hp : c.params.Feasible)
    (hd : (c.params.draws (Generator.keyed (Keystream.ofSeed seed))).isSome)
    (hroom : ∀ bytes ∈ c.params.rooms, bytes ≤ Capacity.limit) : r.isConsistent := by
  obtain ⟨seed', elapsed, fin, hseed', hfin, rfl⟩ := h
  cases hseed.symm.trans hseed'
  obtain ⟨fin', hfin', hconsistent⟩ := exists_bench hp hd hroom elapsed
  cases hfin.symm.trans hfin'
  exact hconsistent

end Consistency

/-! ## All runs -/

namespace Program

open World

variable {c : Config} {w : World} {output : Option String}

/-- The lines that runs add to the record file, the first of them being `run`. -/
def recordLines (c : Config) (run : UInt64) (reports : List Report) : String :=
  String.join (reports.mapIdx fun i r => Records.line (Records.fields c (run + .ofNat i) r))

/-- Runs that all yield a report are made one after another, and each prints its report and adds its record. -/
theorem repeatRuns_host {seed : UInt64} (hseed : c.seed = some seed)
    (hmemory : Capacity.refused w.memory c.reportBytes c.params.rooms = none) {left : Nat} {run : UInt64}
    (hbench : ∀ i < left, ∀ elapsed, ∃ fin, bench c.collection.collection c.params elapsed
      (Generator.keyed (Keystream.ofSeed (seed + (run + .ofNat i)))) = .ok fin)
    {text : String} {out : Out host} (hrecording : Records.Recording w.tree output text out) :
    ∃ reports w' out', repeatRuns host c left run out w = (.ok reports, w') ∧ reports.length = left ∧
      (∀ i r, reports[i]? = some r → c.Yields (run + .ofNat i) r) ∧
      w'.out = w.out ++ String.join (reports.map fun r => r.text ++ "\n") ∧ w'.err = w.err ∧
      Records.Recording w'.tree output (text ++ recordLines c run reports) out' := by
  have hzero : ∀ run : UInt64, run + .ofNat 0 = run := fun run => run.add_zero
  have hsucc : ∀ (run : UInt64) (i : Nat), run + 1 + .ofNat i = run + .ofNat (i + 1) := by
    intro run i
    rw [UInt64.ofNat_add, UInt64.add_assoc, UInt64.add_comm 1]
    rfl
  induction left generalizing run w text out with
  | zero =>
    refine ⟨[], w, out, rfl, rfl, nofun, String.append_empty.symm, rfl, ?_⟩
    rw [recordLines, List.mapIdx_nil, String.join_nil, String.append_empty]
    exact hrecording
  | succ left ih =>
    obtain ⟨fin, hfin⟩ := hbench 0 left.succ_pos (w.times.headD ⟨0, 0⟩)
    rw [hzero] at hfin
    obtain ⟨times, hmeasure⟩ := measure_host (C := c.collection.collection)
      (g := .keyed (Keystream.ofSeed (seed + run))) hmemory
    rw [hfin] at hmeasure
    obtain ⟨out₁, t₁, hadd, hrecording₁⟩ := hrecording.add c run fin.report
    have hothers : ∀ i < left, ∀ elapsed, ∃ fin, bench c.collection.collection c.params elapsed
        (Generator.keyed (Keystream.ofSeed (seed + (run + 1 + .ofNat i)))) = .ok fin := by
      intro i hi
      rw [hsucc]
      exact hbench (i + 1) (Nat.succ_lt_succ hi)
    obtain ⟨reports, w', out', hrest, hlength, hyields, hprinted, herr, hrecording'⟩ :=
      ih (w := { w with times, tree := t₁, out := w.out ++ (fin.report.text ++ "\n") }) hmemory hothers hrecording₁
    refine ⟨fin.report :: reports, w', out', repeatRuns_of_ok hseed hmeasure hadd hrest, congrArg (· + 1) hlength, ?_, ?_,
      herr, ?_⟩
    · intro i r hr
      cases i with
      | zero =>
        cases hr
        exact ⟨_, _, fin, by rw [hzero, Config.seedOf, hseed, Option.map_some], hfin, rfl⟩
      | succ i => exact hsucc run i ▸ hyields i r hr
    · rw [hprinted, List.map_cons, String.join_cons, String.append_assoc]
    · rw [String.append_assoc] at hrecording'
      have hlines : recordLines c run (fin.report :: reports) =
          Records.line (Records.fields c run fin.report) ++ recordLines c (run + 1) reports := by
        simp only [recordLines, List.mapIdx_cons, String.join_cons, hzero, hsucc]
      rwa [hlines]

/-- If there is room for the reports, it is taken. -/
theorem reserveReports_of_room (hmemory : Capacity.refused w.memory 0 [c.reportBytes] = none)
    (hlimit : c.reportBytes ≤ Capacity.limit) : reserveReports host c w = (.ok (), w) := by
  rw [reserveReports_host hmemory, Capacity.reserve_eq_ok_iff.mpr hlimit]
  rfl

/-- Reports that the address space could not hold are a fault. -/
theorem reserveReports_of_limit_lt (hlimit : Capacity.limit < c.reportBytes) :
    reserveReports host c w = (.error (.halted (.fault .capacity)), w) := by
  rw [reserveReports_host (Capacity.refused_cons_eq_none_iff.mpr (.inl hlimit)), Capacity.reserve_eq_error_iff.mpr ⟨hlimit, rfl⟩]
  rfl

/-- The summary of runs that are all consistent counts none that is not. -/
theorem summary_of_consistent {reports : List Report} (h : ∀ r ∈ reports, r.isConsistent) :
    ∃ lead, summary reports = lead ++ "runs with size mismatch: 0\n" := by
  have hcount : reports.countP (fun r => !r.isConsistent) = 0 := by
    rw [List.countP_eq_zero]
    intro r hr
    simp [h r hr]
  have hlast : ∀ a b c : String, "\n".intercalate ["", a, b, c, "runs with size mismatch: " ++ toString 0, ""] =
      "\n".intercalate ["", a, b, c, ""] ++ "runs with size mismatch: 0\n" := by
    intro a b c
    rw [← String.toList_inj, String.toList_append, String.toList_intercalate, String.toList_intercalate]
    simp [List.intercalate]
  unfold summary
  rw [hcount]
  exact ⟨_, hlast _ _ _⟩

/-- Whether a command line asks for the runs of a configuration, with a record file or without. -/
def Asks (texts : List String) (c : Config) (output : Option String) : Prop :=
  ∃ v, Request.parse texts = .ok (.run v) ∧ v.config = .ok c ∧ v.output = output ∧ v.dryRun = false

/-- What is asked for is a configuration that was made. -/
theorem Asks.make {texts : List String} (hasks : Asks texts c output) :
    Config.make c.collection c.params c.runs c.seed = .ok c := by
  obtain ⟨v, -, hconfig, -, -⟩ := hasks
  exact Config.make_self hconfig

/-- A command line that asks for runs is followed once its record file is open. -/
theorem run_of_asks {texts : List String} (hasks : Asks texts c output) {out : Out host} {w' : World}
    (hopen : openOut host output w = (.ok out, w')) : run host texts w = runAll host c out w' := by
  obtain ⟨v, hparse, hconfig, rfl, hdry⟩ := hasks
  rw [run_of_openOut hparse hconfig hopen, hdry]
  rfl

/-- What the program has done once the runs of a configuration are made, and these are their reports. -/
structure Ran (c : Config) (output : Option String) (reports : List Report) (w : World) (ended : Ending × World) : Prop where
  status : ended.1.status = some 0
  out : ∃ text, c.text = .ok text ∧ ended.2.out =
    w.out ++ (text ++ "\n") ++ String.join (reports.map fun r => r.text ++ "\n") ++
      if 1 < reports.length then summary reports else ""
  err : ended.2.err = w.err
  recorded : ∀ name ∈ output, ended.2.tree.text? (Path.ofText name) =
    some (Records.line Records.header ++ recordLines c 0 reports)

/-- With its record file open and room for all lists, the program makes all runs. -/
theorem exists_ran_of_recording {seed : UInt64} {out : Out host} (hmade : Config.make c.collection c.params c.runs c.seed = .ok c)
    (hseed : c.seed = some seed) (hp : c.params.Feasible)
    (hdraws : ∀ k < c.runs.toNat, (c.params.draws (Generator.keyed (Keystream.ofSeed (seed + .ofNat k)))).isSome)
    (hrecording : Records.Recording w.tree output (Records.line Records.header) out) (hmemory : w.Suffices c)
    (hroom : ∀ bytes ∈ c.rooms, bytes ≤ Capacity.limit) :
    ∃ reports, reports.length = c.runs.toNat ∧ (∀ k r, reports[k]? = some r → c.Yields (.ofNat k) r) ∧
      Ran c output reports w (runAll host c out w) := by
  obtain ⟨text, htext⟩ := Config.exists_text hmade
  obtain ⟨hreports, hrooms⟩ := List.forall_mem_cons.mp hroom
  obtain ⟨hkept, hbeside⟩ := hmemory.beside hreports
  have hreserve := reserveReports_of_room (w := { w with out := w.out ++ (text ++ "\n") }) hkept hreports
  have hbench : ∀ k < c.runs.toNat, ∀ elapsed, ∃ fin, bench c.collection.collection c.params elapsed
      (Generator.keyed (Keystream.ofSeed (seed + (0 + .ofNat k)))) = .ok fin := by
    intro k hk elapsed
    rw [UInt64.zero_add]
    obtain ⟨fin, hfin, -⟩ := Config.exists_bench hp (hdraws k hk) hrooms elapsed
    exact ⟨fin, hfin⟩
  obtain ⟨reports, w', out', hruns, hlength, hyields, hprinted, herr, hrecording'⟩ :=
    repeatRuns_host (w := { w with out := w.out ++ (text ++ "\n") }) hseed hbeside hbench hrecording
  refine ⟨reports, hlength, fun k r hk => by rw [← UInt64.zero_add (.ofNat k)]; exact hyields k r hk, ?_⟩
  rw [runAll_of_ok htext hreserve hruns]
  exact ⟨rfl, ⟨text, htext, by rw [hprinted]⟩, herr, hrecording'.text?⟩

/-- If there is room for all lists and the record file can be made, the program makes all runs. -/
theorem exists_ran {texts : List String} {seed : UInt64} (hasks : Asks texts c output) (hseed : c.seed = some seed)
    (hp : c.params.Feasible)
    (hdraws : ∀ k < c.runs.toNat, (c.params.draws (Generator.keyed (Keystream.ofSeed (seed + .ofNat k)))).isSome)
    (hmake : ∀ name ∈ output, w.CanMake name) (hmemory : w.Suffices c) (hroom : ∀ bytes ∈ c.rooms, bytes ≤ Capacity.limit) :
    ∃ reports, reports.length = c.runs.toNat ∧ (∀ k r, reports[k]? = some r → c.Yields (.ofNat k) r) ∧
      Ran c output reports w (run host texts w) := by
  obtain ⟨out, t, hopen, hrecording⟩ := Records.recording_of_openOut hmake
  obtain ⟨reports, hlength, hyields, hran⟩ :=
    exists_ran_of_recording (w := { w with tree := t }) hasks.make hseed hp hdraws hrecording hmemory hroom
  rw [run_of_asks hasks hopen]
  exact ⟨reports, hlength, hyields, hran.status, hran.out, hran.err, hran.recorded⟩

/-- A run that is made alone has, but for the time, the report that it has as one of several. -/
theorem exists_ran_alone {texts : List String} {seed run : UInt64} {r : Report} (h : c.Yields run r)
    (hseed : c.seedOf run = some seed) (hasks : Asks texts { c with runs := 1, seed := some seed } output)
    (hp : c.params.Feasible) (hd : (c.params.draws (Generator.keyed (Keystream.ofSeed seed))).isSome)
    (hmake : ∀ name ∈ output, w.CanMake name) (hmemory : w.Suffices { c with runs := 1, seed := some seed })
    (hroom : ∀ bytes ∈ c.params.rooms, bytes ≤ Capacity.limit) :
    ∃ elapsed, Ran { c with runs := 1, seed := some seed } output [{ r with elapsed }] w (Program.run host texts w) := by
  have hzero : seed + .ofNat 0 = seed := seed.add_zero
  have hreport : 1 * Report.bytes ≤ Capacity.limit := by decide
  obtain ⟨reports, hlength, hyields, hran⟩ := exists_ran hasks rfl hp (by
    intro k hk
    obtain rfl : k = 0 := Nat.lt_one_iff.mp hk
    rwa [hzero]) hmake hmemory (List.forall_mem_cons.mpr ⟨hreport, hroom⟩)
  obtain ⟨r₁, rfl⟩ := List.length_eq_one_iff.mp hlength
  have hsame : r₁ = { r with elapsed := r₁.elapsed } := by
    refine h.eq_of_seed (hyields 0 r₁ rfl) rfl rfl ?_
    rw [hseed, Config.seedOf, Option.map_some, hzero]
  exact ⟨r₁.elapsed, hsame ▸ hran⟩

/-! ## Without room -/

/-- A run with a list that the address space could not hold stops before it is through, and has shown nothing. -/
theorem measure_of_limit_lt (kind : CollectionKind) {held : Nat} {p : Params} {g : Generator} (hp : p.Feasible)
    (hd : (p.draws g).isSome) (hmemory : Capacity.refused w.memory held p.rooms = none)
    (hlimit : ∃ bytes ∈ p.rooms, Capacity.limit < bytes) :
    ∃ times, measure host held kind.collection p g w = (.error (.halted (.fault .capacity)), { w with times }) := by
  obtain ⟨d, hd⟩ := Option.isSome_iff_exists.mp hd
  obtain ⟨times, hmeasure⟩ := measure_host (C := kind.collection) (g := g) hmemory
  rw [kind.steady.bench_of_no_room kind.rests_empty hp hd hlimit] at hmeasure
  exact ⟨times, hmeasure⟩

/-- If the address space could not hold one of the lists, the program breaks off after it has printed what it is about to do. -/
theorem runAll_of_limit_lt {seed : UInt64} (out : Out host) (hmade : Config.make c.collection c.params c.runs c.seed = .ok c)
    (hseed : c.seed = some seed) (hp : c.params.Feasible)
    (hd : (c.params.draws (Generator.keyed (Keystream.ofSeed seed))).isSome) (hmemory : w.Suffices c)
    (hlimit : ∃ bytes ∈ c.rooms, Capacity.limit < bytes) :
    ∃ text w', c.text = .ok text ∧ runAll host c out w = (.broken, w') ∧ w'.out = w.out ++ (text ++ "\n") ∧ w'.tree = w.tree := by
  obtain ⟨text, htext⟩ := Config.exists_text hmade
  obtain ⟨times, hall⟩ : ∃ times, runAll host c out w =
      giveUp host (.halted (.fault .capacity)) { w with out := w.out ++ (text ++ "\n"), times } := by
    by_cases hreports : Capacity.limit < c.reportBytes
    · exact ⟨w.times, runAll_of_not_reserved htext (reserveReports_of_limit_lt hreports)⟩
    · have hfit := Nat.not_lt.mp hreports
      obtain ⟨hkept, hbeside⟩ := hmemory.beside hfit
      have hreserve := reserveReports_of_room (w := { w with out := w.out ++ (text ++ "\n") }) hkept hfit
      have hrun : ∃ bytes ∈ c.params.rooms, Capacity.limit < bytes := by
        simpa [Config.rooms, hreports] using hlimit
      obtain ⟨left, hleft⟩ := Nat.exists_eq_succ_of_ne_zero (Nat.one_le_iff_ne_zero.mp (Config.one_le_runs hmade))
      obtain ⟨times, hmeasure⟩ :=
        measure_of_limit_lt (w := { w with out := w.out ++ (text ++ "\n") }) c.collection hp hd hbeside hrun
      have hruns : repeatRuns host c c.runs.toNat 0 out { w with out := w.out ++ (text ++ "\n") } =
          (.error (.halted (.fault .capacity)), { w with out := w.out ++ (text ++ "\n"), times }) := by
        rw [hleft]
        exact repeatRuns_of_error hseed (by rw [UInt64.add_zero]; exact hmeasure)
      exact ⟨times, runAll_of_error htext hreserve hruns⟩
  exact ⟨text, _, htext, hall, rfl, rfl⟩

/-- Nothing of a run is left for the next one. Let a command line with a seed be followed in a world that has memory for its lists and
in which its record file can be made. If the address space can hold each of the lists, the program ends well: after the line about
the configuration come the reports of all runs and, if there are several, a summary that counts no run with a wrong size, and the
record file has a line for each run after the names of the fields. Each report is, but for the time, the one printed by any command
line that asks for the same run alone, with the seed that many further on, and its line is that one's line with the number of the
run and the time put in their fields. If the address space could not hold one of the lists, the program breaks off with its own
status; the line about the configuration is all that is printed, and the record file has the names of the fields alone. The workers
of a run are run one after another. -/
theorem runs_are_independent {texts : List String} {seed : UInt64} (hasks : Asks texts c output) (hseed : c.seed = some seed)
    (hi : c.params.tasks.toNat * c.params.inserts.toNat < 2 ^ 64) (hr : c.params.tasks.toNat * c.params.removes.toNat < 2 ^ 64)
    (hdraws : ∀ k < c.runs.toNat, (c.params.draws (Generator.keyed (Keystream.ofSeed (seed + .ofNat k)))).isSome)
    (hmake : ∀ name ∈ output, w.CanMake name) (hmemory : w.Suffices c) :
    let ended := run host texts w
    ((∀ bytes ∈ c.rooms, bytes ≤ Capacity.limit) →
      ∃ reports, reports.length = c.runs.toNat ∧ Ran c output reports w ended ∧
        (∃ lead, summary reports = lead ++ "runs with size mismatch: 0\n") ∧
        ∀ k r, reports[k]? = some r → ∀ texts₁ output₁ (w₁ : World),
          let c₁ : Config := { c with runs := 1, seed := some (seed + .ofNat k) }
          Asks texts₁ c₁ output₁ → (∀ name ∈ output₁, w₁.CanMake name) → w₁.Suffices c₁ →
            ∃ elapsed, Ran c₁ output₁ [{ r with elapsed }] w₁ (run host texts₁ w₁) ∧
              Records.fields c (.ofNat k) r =
                ((Records.fields c₁ 0 { r with elapsed }).set (Records.header.idxOf "run") (toString k)).set
                  (Records.header.idxOf "runtime_sec") (Decimal.text r.elapsed.seconds)) ∧
    ((∃ bytes ∈ c.rooms, Capacity.limit < bytes) →
      ended.1.status = some 101 ∧ (∃ text, c.text = .ok text ∧ ended.2.out = w.out ++ (text ++ "\n")) ∧
        ∀ name ∈ output, ended.2.tree.text? (Path.ofText name) = some (Records.line Records.header)) := by
  intro ended
  have hp := Config.feasible hasks.make hi hr
  refine ⟨fun hroom => ?_, fun hlimit => ?_⟩
  · obtain ⟨reports, hlength, hyields, hran⟩ := exists_ran hasks hseed hp hdraws hmake hmemory hroom
    have hrun : ∀ bytes ∈ c.params.rooms, bytes ≤ Capacity.limit := (List.forall_mem_cons.mp hroom).2
    have hlt : ∀ {k r}, reports[k]? = some r → k < c.runs.toNat := fun hk => hlength ▸ (List.getElem?_eq_some_iff.mp hk).1
    have hseedOf : ∀ k, c.seedOf (.ofNat k) = some (seed + .ofNat k) := by
      intro k
      rw [Config.seedOf, hseed, Option.map_some]
    refine ⟨reports, hlength, hran, summary_of_consistent ?_, ?_⟩
    · intro r hr
      obtain ⟨k, hk⟩ := List.getElem?_of_mem hr
      exact (hyields k r hk).isConsistent (hseedOf k) hp (hdraws k (hlt hk)) hrun
    · intro k r hk texts₁ output₁ w₁ c₁ hasks₁ hmake₁ hmemory₁
      obtain ⟨elapsed, hran₁⟩ :=
        exists_ran_alone (hyields k r hk) (hseedOf k) hasks₁ hp (hdraws k (hlt hk)) hmake₁ hmemory₁ hrun
      refine ⟨elapsed, hran₁, ?_⟩
      have hfields := Records.fields_of_single c (.ofNat k) r c₁.seed elapsed
      rwa [UInt64.toNat_ofNat_of_lt' (Nat.lt_trans (hlt hk) c.runs.toNat_lt)] at hfields
  · have hd := hdraws 0 (Config.one_le_runs hasks.make)
    have hzero : seed + .ofNat 0 = seed := seed.add_zero
    rw [hzero] at hd
    obtain ⟨out, t, hopen, hrecording⟩ := Records.recording_of_openOut hmake
    obtain ⟨text, w', htext, hall, hout, htree⟩ :=
      runAll_of_limit_lt (w := { w with tree := t }) out hasks.make hseed hp hd hmemory hlimit
    have hended : ended = (.broken, w') := (run_of_asks hasks hopen).trans hall
    rw [hended]
    exact ⟨rfl, ⟨text, htext, hout⟩, htree ▸ hrecording.text?⟩

/-- The seed of the first run is the last there is, so the second run is that of seed zero alone. -/
theorem two_runs_are_independent :
    let c : Config := ⟨.striped, ⟨1, 5, 2, 40, 20⟩, 2, some 18446744073709551615⟩
    let alone : Config := ⟨.striped, ⟨1, 5, 2, 40, 20⟩, 1, some 0⟩
    let w : World := { tree := Tree.initial }
    ∃ first second elapsed,
      Ran c (some "runs.csv") [first, second] w
        (run host ["1", "5", "2", "40", "20", "-s", "18446744073709551615", "-n", "2", "-o", "runs.csv"] w) ∧
      Ran alone none [{ second with elapsed }] w (run host ["-s0", "1", "5", "2", "40", "20"] w) := by
  intro c alone w
  have hasks : Asks ["1", "5", "2", "40", "20", "-s", "18446744073709551615", "-n", "2", "-o", "runs.csv"] c (some "runs.csv") :=
    ⟨⟨some 1, some 5, some 2, some 40, some 20, none, some 18446744073709551615, some 2, some "runs.csv", false⟩,
      by decide +kernel, rfl, rfl, rfl⟩
  have halone : Asks ["-s0", "1", "5", "2", "40", "20"] alone none :=
    ⟨⟨some 1, some 5, some 2, some 40, some 20, none, some 0, none, none, false⟩, by decide +kernel, rfl, rfl, rfl⟩
  have hdraws : ∀ k < c.runs.toNat,
      (c.params.draws (Generator.keyed (Keystream.ofSeed (18446744073709551615 + .ofNat k)))).isSome := by
    decide +kernel
  have hmake : ∀ name ∈ some "runs.csv", w.CanMake name := by
    rintro name ⟨⟩
    have hmade : Records.makeRoom Tree.disk (Path.ofText "runs.csv") Tree.initial = (.ok (), Tree.initial) := rfl
    have hexisting : Tree.initial.openExisting (Path.ofText "runs.csv") = .error .notFound := rfl
    have hcreate : Tree.initial.openOrCreate (Path.ofText "runs.csv") = .ok (⟨["runs.csv", "work", "tmp"], some 0⟩, _) := rfl
    obtain ⟨writer, t, hopen, hplace, -⟩ := Records.holds_of_create hmade hexisting hcreate
    refine ⟨writer, congrArg Prod.fst hopen, ?_⟩
    rw [hplace]
    rfl
  have hmemory : w.Suffices c := by
    unfold Suffices
    decide +kernel
  have hmemory' : w.Suffices alone := by
    unfold Suffices
    decide +kernel
  have hroom : ∀ bytes ∈ c.rooms, bytes ≤ Capacity.limit := by
    decide +kernel
  obtain ⟨hran, -⟩ := runs_are_independent hasks rfl (by decide) (by decide) hdraws hmake hmemory
  obtain ⟨reports, hlength, hran, -, halike⟩ := hran hroom
  obtain ⟨first, second, rfl⟩ := List.length_eq_two.mp hlength
  obtain ⟨elapsed, hsecond, -⟩ := halike 1 second rfl _ none w halone nofun hmemory'
  exact ⟨first, second, elapsed, hran, hsecond⟩

/-- For more reports than the address space could hold there is no room, even if the runs have nothing to do. -/
theorem too_many_runs_break_off :
    let texts := ["1", "0", "1", "0", "0", "-s", "1", "-n", "82351536043346213"]
    let c : Config := ⟨.striped, ⟨1, 0, 1, 0, 0⟩, 82351536043346213, some 1⟩
    let w : World := { tree := Tree.initial }
    Asks texts c none ∧ (∀ seed, (c.params.draws (Generator.keyed (Keystream.ofSeed seed))).isSome) ∧
      ∃ text, c.text = .ok text ∧ (run host texts w).2.out = text ++ "\n" ∧ (run host texts w).1.status = some 101 := by
  intro texts c w
  have hasks : Asks texts c none :=
    ⟨⟨some 1, some 0, some 1, some 0, some 0, none, some 1, some 82351536043346213, none, false⟩,
      by decide +kernel, rfl, rfl, rfl⟩
  obtain ⟨text, htext⟩ := Config.exists_text hasks.make
  have hdraws : ∀ g : Generator, (c.params.draws g).isSome := by
    intro g
    have hshares : Composition.ofShares 0 0 0 = .ok ⟨0, 0, 0⟩ := rfl
    obtain ⟨range, hrange, -⟩ := KeyRange.exists_ofTasks 0
    simp only [Params.draws, c, hrange, hshares]
    rfl
  have hlimit : Capacity.limit < c.reportBytes := by decide +kernel
  have hrun : run host texts w = _ :=
    (run_of_asks hasks rfl).trans (runAll_of_not_reserved htext (reserveReports_of_limit_lt hlimit))
  refine ⟨hasks, fun seed => hdraws _, text, htext, ?_, ?_⟩
  · rw [hrun]
    rfl
  · rw [hrun]
    rfl

end Program

end TxnBench
