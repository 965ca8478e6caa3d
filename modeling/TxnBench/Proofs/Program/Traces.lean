import TxnBench.Proofs.DryRunFlag
import TxnBench.Proofs.Program.World
import TxnBench.Proofs.Records.Shared

/-!
# What a command line leaves that starts no benchmark

A command line that is rejected is turned down before anything is asked of the files, so it leaves them as they are, record file
or not. A dry run opens its record file and then ends: all it leaves is what the opening has made (`Records.Opened`), which is the
file with the names of the fields in it, if it was not there, and the directories missing above it. Neither prints anything where
results go (`leaves_no_trace`).
-/

namespace TxnBench

namespace Records

/-- What is left by the opening of a record file at a place. All that was there is as it was; all that is new is the file, which
holds the names of the fields, and directories to which the paths above its own lead. As a path may lead into a directory and out of
it again, such a directory may be made for a file that is there. -/
structure Opened (p : Path) (place : Place) (t t' : Tree) : Prop where
  working : t'.working = t.working
  kept : ∀ {other : Place} {node}, t.nodes[other]? = some node → t'.nodes[other]? = some node
  names : t'.Names p place
  file : ∃ node, t'.nodes[place]? = some node ∧ node ≠ .directory ∧
    (t.nodes[place]? = none → node = .regular (bytesOf (line header)))
  made : ∀ {other : Place} {node}, t'.nodes[other]? = some node →
    t.nodes[other]? = some node ∨ other = place ∨ node = .directory ∧ ∃ dir ∈ p.above, t'.Reaches dir other

/-- An opening that goes well leaves only what belongs to the file. -/
theorem opened_of_openAt {p : Path} {t t' : Tree} {w : Writer Handle} (hopen : openAt Tree.disk p t = (.ok w, t')) :
    Opened p w.handle.place t t' := by
  obtain ⟨t₁, hmade, hopened⟩ := exists_of_openAt hopen
  have hgrows := growsAlong_makeRoom p t
  rw [hmade] at hgrows
  obtain ⟨hexisting, -, rfl⟩ | ⟨e, handle, t₂, hexisting, hcreate⟩ := hopened
  · obtain ⟨-, hnames, node, hnode, hne⟩ := Tree.of_openExisting hexisting
    refine ⟨hgrows.working, hgrows.kept, hnames, ⟨node, hnode, hne, fun hnone => ?_⟩,
      fun hother => (hgrows.madeAlong hother).imp_right Or.inr⟩
    -- Only directories were made on the way, so the file was there.
    rcases hgrows.made hnode with hbefore | hdirectory
    · cases hnone.symm.trans hbefore
    · exact absurd hdirectory hne
  · obtain ⟨hcreated, hnone, hleads⟩ := openAt_create hmade hexisting hcreate
    cases hopen.symm.trans hcreated
    obtain ⟨-, ⟨-, rfl, hkeeps, hempty⟩ | ⟨-, hothers⟩⟩ := Tree.of_openOrCreate hcreate
    · have hkeeps' := hkeeps.trans (hempty.keeps (bytesOf (line header)))
      have helsewhere : ∀ {other : Place}, handle.place ≠ other →
          ((t₁.set handle.place (.regular [])).set handle.place (.regular (bytesOf (line header)))).nodes[other]? =
            t₁.nodes[other]? := by
        intro other hne
        rw [Tree.nodes_set, if_neg hne, Tree.nodes_set, if_neg hne]
      refine ⟨hkeeps'.working.trans hgrows.working, fun {other node} hother => ?_, hleads.toNames,
        ⟨_, hleads.there, nofun, fun _ => rfl⟩, fun {other node} hother => ?_⟩
      · have hne : handle.place ≠ other := by
          rintro rfl
          cases hnone.symm.trans hother
        exact (helsewhere hne).trans (hgrows.kept hother)
      · by_cases hplace : handle.place = other
        · exact Or.inr (Or.inl hplace.symm)
        · exact (hgrows.madeAlong ((helsewhere hplace).symm.trans hother)).imp_right
            fun ⟨hdirectory, dir, hdir, hreaches⟩ => Or.inr ⟨hdirectory, dir, hdir, hreaches.mono hkeeps'⟩
    · cases hexisting.symm.trans hothers

end Records

namespace Values

variable {v : Values}

/-- Values make no configuration if there are no threads, or more insertions and removals than all tasks. -/
theorem exists_config_error_iff :
    (∃ e, v.config = .error e) ↔ v.threads.getD 0 = 0 ∨ 100 < (v.inserts.getD 0).toNat + (v.removes.getD 0).toNat := by
  unfold config Config.make
  dsimp only
  split
  · rename_i hthreads
    simp [hthreads]
  · rename_i hthreads
    split
    · rename_i hshares
      simp [hshares]
    · rename_i hshares
      simp [hthreads, hshares]

end Values

namespace Program

open World

variable {texts : List String} {v : Values} {c : Config} {w : World}

/-- Whether a command line is rejected: it cannot be read, or it asks for no threads, or for shares of insertions and removals that
exceed 100 percent together. -/
def Rejected (texts : List String) : Prop :=
  (∃ e, Request.parse texts = .error e) ∨
    ∃ v, Request.parse texts = .ok (.run v) ∧
      (v.threads.getD 0 = 0 ∨ 100 < (v.inserts.getD 0).toNat + (v.removes.getD 0).toNat)

/-- A rejected command line is complained about, and that is all. -/
theorem run_of_rejected (h : Rejected texts) : ∃ err, run host texts w = (.usage, { w with err }) := by
  unfold run
  rcases h with ⟨e, hparse⟩ | ⟨v, hparse, hunfit⟩
  · rw [hparse]
    exact ⟨_, turnDown_host e.message⟩
  · obtain ⟨e, hconfig⟩ := Values.exists_config_error_iff.mpr hunfit
    rw [hparse]
    dsimp only
    rw [hconfig]
    exact ⟨_, turnDown_host e.message⟩

/-- A dry run ends once its record file is open. -/
theorem run_of_dryRun (hparse : Request.parse texts = .ok (.run v)) (hconfig : v.config = .ok c) (hflag : "--dry-run" ∈ texts)
    {out : Out host} {w' : World} (hopen : openOut host v.output w = (.ok out, w')) : run host texts w = (.success, w') := by
  rw [run_of_openOut hparse hconfig hopen, (Request.dryRun_iff_mem hparse).mpr hflag]
  rfl

/-- What starts no benchmark leaves no trace. If a command line is rejected, because it cannot be read or because no benchmark could
run with what it asks for, the status is 2, nothing is printed, and the files are as they were, whatever else it asks for. If it is
accepted with the flag of a dry run, and its record file can be opened, the status is 0, nothing is printed, and all that is new
among the files is the record file, if it was not there, with the names of the fields and the directories above it. -/
theorem leaves_no_trace (texts : List String) (w : World) :
    let ended := run host texts w
    (Rejected texts → ended.1.status = some 2 ∧ ended.2.out = w.out ∧ ended.2.tree = w.tree) ∧
      ∀ v, Request.parse texts = .ok (.run v) → ¬Rejected texts → "--dry-run" ∈ texts →
        (∀ name ∈ v.output, ∃ writer, (Records.openAt Tree.disk (Path.ofText name) w.tree).1 = .ok writer) →
        ended.1.status = some 0 ∧ ended.2.out = w.out ∧ (v.output = none → ended.2.tree = w.tree) ∧
          ∀ name ∈ v.output, ∃ place, Records.Opened (Path.ofText name) place w.tree ended.2.tree := by
  intro ended
  refine ⟨fun hrejected => ?_, fun v hparse haccepted hflag hopen => ?_⟩
  · obtain ⟨err, hrun⟩ := run_of_rejected (w := w) hrejected
    change ended = _ at hrun
    rw [hrun]
    exact ⟨rfl, rfl, rfl⟩
  · obtain ⟨c, hconfig⟩ : ∃ c, v.config = .ok c := by
      cases hconfig : v.config with
      | ok c => exact ⟨c, rfl⟩
      | error e => exact absurd (Or.inr ⟨v, hparse, Values.exists_config_error_iff.mp ⟨e, hconfig⟩⟩) haccepted
    cases hout : v.output with
    | none =>
      have hrun : ended = (.success, w) := run_of_dryRun hparse hconfig hflag (by rw [hout]; rfl)
      rw [hrun]
      exact ⟨rfl, rfl, fun _ => rfl, nofun⟩
    | some name =>
      obtain ⟨writer, hopen⟩ := hopen name hout
      have hrun : ended = (.success, { w with tree := (Records.openAt Tree.disk (Path.ofText name) w.tree).2 }) :=
        run_of_dryRun hparse hconfig hflag (by rw [hout]; exact openOut_some (Prod.ext hopen rfl))
      rw [hrun]
      refine ⟨rfl, rfl, nofun, ?_⟩
      rintro _ ⟨⟩
      exact ⟨writer.handle.place, Records.opened_of_openAt (Prod.ext hopen rfl)⟩

/-- With no threads nothing is done about the record file. With one thread, and the options elsewhere, it is made in a directory
that was missing, and a device stays what it was. -/
theorem dry_run_makes_directory :
    let w : World := { tree := Tree.initial }
    let rejected := run host ["0", "10", "1", "50", "50", "-o", "out/runs.csv", "--dry-run"] w
    let dry := run host ["1", "--dry-run", "10", "1", "-oout/runs.csv", "50", "50"] w
    rejected.1.status = some 2 ∧ rejected.2.tree = Tree.initial ∧ dry.1.status = some 0 ∧ dry.2.out = "" ∧
      dry.2.tree.nodes[["null", "dev"]]? = some .sink ∧
      ∃ place, Records.Opened (Path.ofText "out/runs.csv") place Tree.initial dry.2.tree := by
  intro w rejected dry
  have hrejected : Rejected ["0", "10", "1", "50", "50", "-o", "out/runs.csv", "--dry-run"] :=
    Or.inr ⟨⟨some 0, some 10, some 1, some 50, some 50, none, none, none, some "out/runs.csv", true⟩, by decide +kernel,
      Or.inl rfl⟩
  let v : Values := ⟨some 1, some 10, some 1, some 50, some 50, none, none, none, some "out/runs.csv", true⟩
  have hparse : Request.parse ["1", "--dry-run", "10", "1", "-oout/runs.csv", "50", "50"] = .ok (.run v) := by decide +kernel
  have haccepted : ¬Rejected ["1", "--dry-run", "10", "1", "-oout/runs.csv", "50", "50"] := by
    rintro (⟨e, he⟩ | ⟨v', hv', hunfit⟩)
    · cases hparse.symm.trans he
    · cases hparse.symm.trans hv'
      revert hunfit
      decide
  have hopen : ∀ name ∈ v.output, ∃ writer, (Records.openAt Tree.disk (Path.ofText name) w.tree).1 = .ok writer := by
    rintro _ ⟨⟩
    let t := Tree.initial.set ["out", "work", "tmp"] .directory
    have hmade : Records.makeRoom Tree.disk (Path.ofText "out/runs.csv") Tree.initial = (.ok (), t) := rfl
    have hexisting : t.openExisting (Path.ofText "out/runs.csv") = .error .notFound := rfl
    have hcreate : t.openOrCreate (Path.ofText "out/runs.csv") = .ok (⟨["runs.csv", "out", "work", "tmp"], some 0⟩, _) := rfl
    exact ⟨_, congrArg Prod.fst (Records.openAt_create hmade hexisting hcreate).1⟩
  obtain ⟨hstatus, -, htree⟩ := (leaves_no_trace _ w).1 hrejected
  obtain ⟨hdone, hout, -, hopened⟩ := (leaves_no_trace _ w).2 v hparse haccepted (by decide) hopen
  obtain ⟨place, hopened⟩ := hopened "out/runs.csv" rfl
  exact ⟨hstatus, htree, hdone, hout, hopened.kept rfl, place, hopened⟩

end Program

end TxnBench
