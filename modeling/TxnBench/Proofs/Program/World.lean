import TxnBench.Program
import TxnBench.Proofs.Records.Sessions

/-!
# Running the program in a world

In a world all that the program asks of its surroundings is a value, so each part of the program has an equation: for the world
it is started in, what it returns and the world it leaves. What is asked of the files is what is asked of a tree, and leaves all
else alone (`openAt_host`, `add_host`); a run is a benchmark whose workers take the time that the clock is going to say
(`measure_host`).
-/

namespace TxnBench

namespace World

/-- What follows a request is done in the world that the request has left. -/
theorem bind_of_eq {α β : Type} {x : StateM World α} {f : α → StateM World β} {w w' : World} {a : α} (h : x w = (a, w')) :
    (x >>= f) w = f a w' := by
  rw [Records.bind_apply, h]

theorem memory_host (w : World) : host.memory w = (w.memory, w) :=
  rfl

theorem print_host (text : String) (w : World) : host.print text w = ((), { w with out := w.out ++ text }) :=
  rfl

theorem timed_host {α : Type} (f : Unit → α) (w : World) :
    host.timed f w = ((w.times.headD ⟨0, 0⟩, f ()), { w with times := w.times.tail }) :=
  rfl

theorem onTree_bind {α β : Type} (x : StateM Tree α) (f : α → StateM Tree β) :
    onTree (x >>= f) = onTree x >>= fun a => onTree (f a) :=
  rfl

theorem makeRoom_host (p : Path) : Records.makeRoom host.disk p = onTree (Records.makeRoom Tree.disk p) := by
  unfold Records.makeRoom
  cases p.parent? <;> rfl

theorem writer_add_host (w : Records.Writer Handle) (text : String) :
    Records.Writer.add host.disk w text = onTree (Records.Writer.add Tree.disk w text) := by
  unfold Records.Writer.add
  dsimp only
  rw [onTree_bind]
  congr 1
  funext result
  cases result <;> rfl

theorem openAt_host {p : Path} {w : World} {result : Except BenchError (Records.Writer Handle)} {t : Tree}
    (hopen : Records.openAt Tree.disk p w.tree = (result, t)) :
    Records.openAt host.disk p w = (result, { w with tree := t }) := by
  have hall : Records.openAt host.disk p = onTree (Records.openAt Tree.disk p) := by
    unfold Records.openAt
    rw [onTree_bind, makeRoom_host]
    congr 1
    funext result
    cases result with
    | error e => rfl
    | ok =>
      dsimp only
      rw [onTree_bind]
      congr 1
      funext result
      cases result with
      | ok handle => rfl
      | error e =>
        dsimp only
        rw [onTree_bind]
        congr 1
        funext result
        cases result with
        | error e => rfl
        | ok handle =>
          exact congrArg (· >>= fun added => pure (added.1.map fun () => added.2))
            (writer_add_host ⟨handle, ""⟩ (Records.line Records.header))
  rw [hall, onTree, hopen]
  rfl

theorem add_host {out : Option (Records.Writer Handle)} {c : Config} {run : UInt64} {r : Report} {w : World}
    {added : Except BenchError Unit × Option (Records.Writer Handle)} {t : Tree}
    (hadd : Records.add Tree.disk out c run r w.tree = (added, t)) :
    Records.add host.disk out c run r w = (added, { w with tree := t }) := by
  have hall : Records.add host.disk out c run r = onTree (Records.add Tree.disk out c run r) := by
    cases out with
    | none => rfl
    | some wr =>
      exact congrArg (· >>= fun added => pure (added.1, some added.2))
        (writer_add_host wr (Records.line (Records.fields c run r)))
  rw [hall, onTree, hadd]
  rfl

end World

namespace Program

open World

variable {c : Config} {w : World}

theorem openOut_some {name : String} {result : Except BenchError (Records.Writer Handle)} {t : Tree}
    (hopen : Records.openAt Tree.disk (Path.ofText name) w.tree = (result, t)) :
    openOut host (some name) w = (result.map some, { w with tree := t }) := by
  change (Records.openAt host.disk (Path.ofText name) >>= fun opened => pure (opened.map some)) w = _
  rw [bind_of_eq (openAt_host hopen)]
  rfl

/-- A seeded run draws from the stream of its own seed. -/
theorem source_of_seed {seed : UInt64} (hseed : c.seed = some seed) (run : UInt64) :
    source host c run w = (.keyed (Keystream.ofSeed (seed + run)), w) := by
  unfold source Config.seedOf
  rw [hseed]
  rfl

/-- If the machine refuses none of the lists of a run, what is measured is a benchmark whose workers take the time that the clock
says. -/
theorem measure_host {held : Nat} {C : Collection UInt64 UInt64} {p : Params} {g : Generator}
    (hmemory : Capacity.refused w.memory held p.rooms = none) :
    ∃ times, measure host held C p g w =
      (((bench C p (w.times.headD ⟨0, 0⟩) g).map fun fin => fin.report).mapError .halted, { w with times }) := by
  unfold measure bench
  rw [bind_of_eq (memory_host w)]
  rw [hmemory]
  cases Bench.prepare C p g with
  | error e => exact ⟨w.times, rfl⟩
  | ok ready =>
    refine ⟨w.times.tail, ?_⟩
    dsimp only
    rw [bind_of_eq (timed_host _ w)]
    dsimp only [bind, Except.bind]
    cases ready.execute p with
    | error e => rfl
    | ok executed =>
      dsimp only
      cases executed.report (w.times.headD ⟨0, 0⟩) <;> rfl

section Runs

variable {seed run : UInt64} {left : Nat} {out : Out host} {w₁ w' : World} {e : Stop} {report : Report}

/-- A run that stops is the last. -/
theorem repeatRuns_of_error (hseed : c.seed = some seed)
    (hmeasure : measure host c.reportBytes c.collection.collection c.params (.keyed (Keystream.ofSeed (seed + run))) w =
      (.error e, w₁)) :
    repeatRuns host c (left + 1) run out w = (.error e, w₁) := by
  rw [repeatRuns, bind_of_eq (source_of_seed hseed run), bind_of_eq hmeasure]
  rfl

/-- After a run its report is printed and its record is added, and the others follow. -/
theorem repeatRuns_of_ok (hseed : c.seed = some seed)
    (hmeasure : measure host c.reportBytes c.collection.collection c.params (.keyed (Keystream.ofSeed (seed + run))) w =
      (.ok report, w₁))
    {out' : Out host} {t' : Tree} {reports : List Report}
    (hadd : Records.add Tree.disk out c run report w₁.tree = ((.ok (), out'), t'))
    (hrest : repeatRuns host c left (run + 1) out' { w₁ with tree := t', out := w₁.out ++ (report.text ++ "\n") } =
      (.ok reports, w')) :
    repeatRuns host c (left + 1) run out w = (.ok (report :: reports), w') := by
  rw [repeatRuns, bind_of_eq (source_of_seed hseed run), bind_of_eq hmeasure]
  dsimp only
  rw [bind_of_eq (print_host _ w₁), bind_of_eq (add_host (w := { w₁ with out := w₁.out ++ (report.text ++ "\n") }) hadd)]
  dsimp only
  rw [bind_of_eq hrest]
  rfl

end Runs

/-- The reports are kept in one list. If the machine does not refuse it, room is taken for it, or it is a fault. -/
theorem reserveReports_host (hmemory : Capacity.refused w.memory 0 [c.reportBytes] = none) :
    reserveReports host c w = ((Capacity.reserve c.runs.toNat Report.bytes).mapError fun f => .halted (.fault f), w) := by
  unfold reserveReports
  rw [bind_of_eq (memory_host w), hmemory]
  rfl

section All

variable {text : String} {out : Out host} {w' : World} {e : Stop}

/-- When all runs are made, there is a summary if there were several. -/
theorem runAll_of_ok {reports : List Report} (htext : c.text = .ok text)
    (hreserve : reserveReports host c { w with out := w.out ++ (text ++ "\n") } = (.ok (), w'))
    {w₁ : World} (hruns : repeatRuns host c c.runs.toNat 0 out w' = (.ok reports, w₁)) :
    runAll host c out w =
      (.success, { w₁ with out := w₁.out ++ if 1 < reports.length then summary reports else "" }) := by
  unfold runAll
  rw [htext]
  dsimp only
  rw [bind_of_eq (print_host _ w), bind_of_eq hreserve]
  dsimp only
  rw [bind_of_eq hruns]
  dsimp only
  split
  · rfl
  · rw [String.append_empty]
    rfl

/-- Without room for the reports nothing is run. -/
theorem runAll_of_not_reserved (htext : c.text = .ok text)
    (hreserve : reserveReports host c { w with out := w.out ++ (text ++ "\n") } = (.error e, w')) :
    runAll host c out w = giveUp host e w' := by
  unfold runAll
  rw [htext]
  dsimp only
  rw [bind_of_eq (print_host _ w), bind_of_eq hreserve]

/-- When a run stops the program does. -/
theorem runAll_of_error (htext : c.text = .ok text)
    (hreserve : reserveReports host c { w with out := w.out ++ (text ++ "\n") } = (.ok (), w'))
    {w₁ : World} (hruns : repeatRuns host c c.runs.toNat 0 out w' = (.error e, w₁)) :
    runAll host c out w = giveUp host e w₁ := by
  unfold runAll
  rw [htext]
  dsimp only
  rw [bind_of_eq (print_host _ w), bind_of_eq hreserve]
  dsimp only
  rw [bind_of_eq hruns]

end All

/-- A command line that is turned down is complained about, and that is all. -/
theorem turnDown_host (reason : String) :
    turnDown host reason w = (.usage, { w with err := w.err ++ ("error: " ++ reason ++ "\n") }) :=
  rfl

/-- Once its record file is open, a command line that is accepted is followed, unless it asks for a dry run. -/
theorem run_of_openOut {texts : List String} {v : Values} (hparse : Request.parse texts = .ok (.run v)) (hconfig : v.config = .ok c)
    {out : Out host} {w' : World} (hopen : openOut host v.output w = (.ok out, w')) :
    run host texts w = if v.dryRun then (.success, w') else runAll host c out w' := by
  unfold run
  rw [hparse]
  dsimp only
  rw [hconfig]
  dsimp only
  rw [bind_of_eq hopen]
  dsimp only
  cases v.dryRun <;> rfl

end Program

end TxnBench
