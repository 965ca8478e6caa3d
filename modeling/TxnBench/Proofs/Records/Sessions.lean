import TxnBench.Proofs.Files
import TxnBench.Proofs.Records.Rows

/-!
# Sessions with a record file

In a session a record file is opened and lines are added to it through the writer opened last, over and over. If the file was not
there before, every step goes well once the first has, and the file holds the names of the fields and the rows added
(`session_writes_table`): what a step adds to the text does not depend on how the writer was opened, since one that has made its file has
come to the end of it by itself (`Step.holds`).
-/

namespace TxnBench.Records

/-- What is done with a record file: it is opened, or a line is added through the writer opened last. -/
inductive Step where
  | reopen
  | add (e : Entry)

namespace Step

/-- The entry that a step adds. -/
def entry? : Step → Option Entry
  | .reopen => none
  | .add e => some e

/-- The text that a step adds. -/
def text : Step → String
  | .reopen => ""
  | .add e => line e.fields

variable {m : Type → Type} [Monad m] (d : Disk m)

/-- Carries out a step. -/
def perform (path : Path) (out : Option (Writer d.Handle)) :
    Step → m (Except BenchError Unit × Option (Writer d.Handle))
  | .reopen => do
    match ← openAt d path with
    | .ok w => return (.ok (), some w)
    | .error e => return (.error e, out)
  | .add e => Records.add d out e.config e.run e.report

/-- Carries out steps one after another, and returns what comes of each. -/
def performAll (path : Path) :
    List Step → Option (Writer d.Handle) → m (List (Except BenchError Unit) × Option (Writer d.Handle))
  | [], out => return ([], out)
  | step :: rest, out => do
    let (result, out) ← step.perform d path out
    let (results, out) ← performAll path rest out
    return (result :: results, out)

end Step

/-! ## Requests to a tree -/

/-- Two requests to a tree: the second is put to the tree that the first has left. -/
theorem bind_apply {σ α β : Type} (x : StateM σ α) (f : α → StateM σ β) (s : σ) : (x >>= f) s = f (x s).1 (x s).2 :=
  rfl

theorem makeRoom_disk (p : Path) (t : Tree) :
    makeRoom Tree.disk p t =
      match p.parent? with
      | none => (.ok (), t)
      | some parent => t.makeDirectories parent := by
  unfold makeRoom
  cases p.parent? <;> rfl

theorem openExisting_disk (p : Path) (t : Tree) : Tree.disk.openExisting p t = (t.openExisting p, t) := by
  simp only [Tree.disk, Tree.request]
  cases t.openExisting p <;> rfl

theorem openOrCreate_disk (p : Path) (t : Tree) :
    Tree.disk.openOrCreate p t =
      match t.openOrCreate p with
      | .ok (h, t) => (.ok h, t)
      | .error e => (.error e, t) := by
  simp only [Tree.disk, Tree.request]
  cases t.openOrCreate p <;> rfl

theorem write_disk (h : Handle) (text : String) (t : Tree) :
    Tree.disk.write h text t =
      match t.write h (bytesOf text) with
      | .ok (h, t) => (.ok h, t)
      | .error e => (.error e, t) := by
  simp only [Tree.disk, Tree.request]
  cases t.write h (bytesOf text) <;> rfl

theorem writer_add_disk (w : Writer Handle) (text : String) (t : Tree) :
    Writer.add Tree.disk w text t =
      match t.write w.handle (bytesOf (w.pending ++ text)) with
      | .ok (h, t) => ((.ok (), ⟨h, ""⟩), t)
      | .error e =>
        ((.error (if room < (w.pending ++ text).utf8ByteSize then .record e else .file e), ⟨w.handle, w.pending ++ text⟩), t) := by
  unfold Writer.add
  rw [bind_apply, write_disk]
  cases t.write w.handle (bytesOf (w.pending ++ text)) <;> rfl

theorem openAt_disk (p : Path) (t : Tree) :
    openAt Tree.disk p t =
      match makeRoom Tree.disk p t with
      | (.error e, t) => (.error (.file e), t)
      | (.ok (), t) =>
        match t.openExisting p with
        | .ok h => (.ok ⟨h, ""⟩, t)
        | .error _ =>
          match t.openOrCreate p with
          | .error e => (.error (.file e), t)
          | .ok (h, t) =>
            let ((result, w), t) := Writer.add Tree.disk (⟨h, ""⟩ : Writer Handle) (line header) t
            (result.map fun () => w, t) := by
  rw [openAt, bind_apply]
  rcases makeRoom Tree.disk p t with ⟨result, t₁⟩
  cases result with
  | error e => rfl
  | ok =>
    dsimp only
    rw [bind_apply, openExisting_disk]
    cases t₁.openExisting p with
    | ok h => rfl
    | error e =>
      dsimp only
      rw [bind_apply, openOrCreate_disk]
      cases t₁.openOrCreate p <;> rfl

/-- A record file that could be opened was there once the directories above it were made, or was made then. -/
theorem exists_of_openAt {p : Path} {t t' : Tree} {w : Writer Handle} (hopen : openAt Tree.disk p t = (.ok w, t')) :
    ∃ t₁, makeRoom Tree.disk p t = (.ok (), t₁) ∧
      ((t₁.openExisting p = .ok w.handle ∧ w.pending = "" ∧ t' = t₁) ∨
        ∃ e handle t₂, t₁.openExisting p = .error e ∧ t₁.openOrCreate p = .ok (handle, t₂)) := by
  rw [openAt_disk] at hopen
  rcases hmade : makeRoom Tree.disk p t with ⟨result, t₁⟩
  rw [hmade] at hopen
  cases result with
  | error e => cases hopen
  | ok =>
    refine ⟨t₁, rfl, ?_⟩
    dsimp only at hopen
    cases hexisting : t₁.openExisting p with
    | ok handle =>
      rw [hexisting] at hopen
      cases hopen
      exact Or.inl ⟨rfl, rfl, rfl⟩
    | error e =>
      rw [hexisting] at hopen
      dsimp only at hopen
      cases hcreate : t₁.openOrCreate p with
      | error e =>
        rw [hcreate] at hopen
        cases hopen
      | ok made => exact Or.inr ⟨e, made.1, made.2, rfl, rfl⟩

/-! ## What a step does -/

/-- To make room is to make directories and nothing else, and once is enough. -/
theorem of_makeRoom {p : Path} {t t' : Tree} (h : makeRoom Tree.disk p t = (.ok (), t')) :
    Tree.Grows t t' ∧ ∀ t'', Tree.Keeps t' t'' → makeRoom Tree.disk p t'' = (.ok (), t'') := by
  simp only [makeRoom_disk] at h ⊢
  cases hp : p.parent? with
  | none =>
    rw [hp] at h
    cases h
    exact ⟨Tree.Grows.refl t, fun _ _ => rfl⟩
  | some parent =>
    rw [hp] at h
    dsimp only at h
    have hgrows := Tree.grows_makeDirectories t parent
    rw [h] at hgrows
    exact ⟨hgrows, fun t'' hkeeps => Tree.makeDirectories_again h hkeeps⟩

/-- A writer has nothing left over and is at the end of a file. -/
structure Writer.Fits (w : Writer Handle) (place : Place) (content : List UInt8) : Prop where
  place : w.handle.place = place
  pending : w.pending = ""
  atEnd : Tree.AtEnd w.handle content

/-- A record file has a text, and its writer is at the end of it; the directories above it are there. -/
structure Holds (t : Tree) (p : Path) (place : Place) (text : String) (w : Writer Handle) : Prop where
  room : ∀ t', Tree.Keeps t t' → makeRoom Tree.disk p t' = (.ok (), t')
  file : t.LeadsTo p place (bytesOf text)
  writer : w.Fits place (bytesOf text)

variable {t : Tree} {p : Path} {place : Place} {text : String} {w : Writer Handle}

/-- A line that is added is at the end of the text then, and the writer is after it. -/
theorem Holds.add (h : Holds t p place text w) (row : List String) :
    ∃ w' t', Writer.add Tree.disk w (line row) t = ((.ok (), w'), t') ∧ Holds t' p place (text ++ line row) w' := by
  obtain ⟨hroom, hfile, hplace, hpending, hend⟩ := h
  subst hplace
  obtain ⟨handle, hwrite, hplace, hend'⟩ := Tree.write_of_atEnd hfile.there hend (bytesOf_ne_nil_of_ends _)
  rw [← bytesOf_append] at hwrite hend'
  refine ⟨⟨handle, ""⟩, _, ?_, ?_, hfile.set _, hplace, rfl, hend'⟩
  · rw [writer_add_disk, hpending, String.empty_append, line, hwrite]
  · exact fun t' ht' => hroom t' ((hfile.keeps _).trans ht')

/-- A record file that is not there is made, as far as this goes well, and begins with the names of the fields. -/
theorem holds_of_create {t₁ t₂ : Tree} {e : FileError} {handle : Handle} (hmade : makeRoom Tree.disk p t = (.ok (), t₁))
    (hexisting : t₁.openExisting p = .error e) (hcreate : t₁.openOrCreate p = .ok (handle, t₂)) :
    ∃ w t', openAt Tree.disk p t = (.ok w, t') ∧ w.handle.place = handle.place ∧
      Holds t' p handle.place (line header) w := by
  obtain ⟨-, hroom⟩ := of_makeRoom hmade
  obtain ⟨hoffset, ⟨-, -, hkeeps, hleads⟩ | ⟨-, hothers⟩⟩ := Tree.of_openOrCreate hcreate
  · have hholds : Holds t₂ p handle.place "" ⟨handle, ""⟩ :=
      ⟨fun t' ht' => hroom t' (hkeeps.trans ht'), bytesOf_empty ▸ hleads, rfl, rfl, bytesOf_empty ▸ Or.inr hoffset⟩
    obtain ⟨w, t', hadd, hholds'⟩ := hholds.add header
    rw [String.empty_append] at hholds'
    refine ⟨w, t', ?_, hholds'.writer.place, hholds'⟩
    rw [openAt_disk, hmade]
    dsimp only
    rw [hexisting, hcreate]
    dsimp only
    rw [hadd]
    rfl
  · cases hexisting.symm.trans hothers

/-- To open a record file that was not there is to make it. -/
theorem holds_of_openAt (hopen : (openAt Tree.disk p t).1 = .ok w) (habsent : t.nodes[w.handle.place]? = none) :
    Holds (openAt Tree.disk p t).2 p w.handle.place (line header) w := by
  obtain ⟨t₁, hmade, hexisting | ⟨e, handle, t₂, hexisting, hcreate⟩⟩ := exists_of_openAt (Prod.ext hopen rfl)
  · -- A file that is there now was there before, as only directories have been made.
    obtain ⟨-, -, node, hnode, hne⟩ := Tree.of_openExisting hexisting.1
    rcases (of_makeRoom hmade).1.made hnode with hbefore | hdirectory
    · cases habsent.symm.trans hbefore
    · exact absurd hdirectory hne
  · obtain ⟨w', t', hcreated, hplace, hholds⟩ := holds_of_create hmade hexisting hcreate
    rw [hcreated] at hopen ⊢
    cases hopen
    rw [hplace]
    exact hholds

/-- A record file that is there is opened as it is, and its new writer is at its end. -/
theorem Holds.reopen (h : Holds t p place text w) :
    openAt Tree.disk p t = (.ok ⟨⟨place, none⟩, ""⟩, t) ∧ Holds t p place text ⟨⟨place, none⟩, ""⟩ := by
  refine ⟨?_, h.room, h.file, rfl, rfl, Or.inl rfl⟩
  rw [openAt_disk, h.room t (.refl t)]
  dsimp only
  rw [h.file.openExisting]

/-- Every step goes well, and adds its text to the file. -/
theorem Step.holds (h : Holds t p place text w) (step : Step) :
    ∃ w' t', step.perform Tree.disk p (some w) t = ((.ok (), some w'), t') ∧ Holds t' p place (text ++ step.text) w' := by
  cases step with
  | reopen =>
    obtain ⟨hopen, hholds⟩ := h.reopen
    refine ⟨_, t, ?_, (String.append_empty (s := text)).symm ▸ hholds⟩
    rw [perform, bind_apply, hopen]
    rfl
  | add e =>
    obtain ⟨w', t', hadd, hholds⟩ := h.add e.fields
    refine ⟨w', t', ?_, hholds⟩
    change ((Writer.add Tree.disk w (line e.fields)) >>= fun added => pure (added.1, some added.2)) t = _
    rw [bind_apply, hadd]
    rfl

/-- The steps after the first are carried out on what it has left. -/
theorem Step.performAll_cons {step : Step} {rest : List Step} {out out₁ out' : Option (Writer Tree.disk.Handle)} {t₁ t' : Tree}
    {result : Except BenchError Unit} {results : List (Except BenchError Unit)}
    (hstep : step.perform Tree.disk p out t = ((result, out₁), t₁))
    (hrest : performAll Tree.disk p rest out₁ t₁ = ((results, out'), t')) :
    performAll Tree.disk p (step :: rest) out t = ((result :: results, out'), t') := by
  rw [performAll, bind_apply, hstep]
  dsimp only
  rw [bind_apply, hrest]
  rfl

/-- All steps of a session go well, and what they add is in the file in their order. -/
theorem Step.performAll_holds (h : Holds t p place text w) (steps : List Step) :
    ∃ w' t', performAll Tree.disk p steps (some w) t = ((List.replicate steps.length (.ok ()), some w'), t') ∧
      Holds t' p place (text ++ String.join (steps.map Step.text)) w' := by
  induction steps generalizing t text w with
  | nil => exact ⟨w, t, rfl, (String.append_empty (s := text)).symm ▸ h⟩
  | cons step rest ih =>
    obtain ⟨w₁, t₁, hstep, hholds₁⟩ := step.holds h
    obtain ⟨w', t', hrest, hholds⟩ := ih hholds₁
    refine ⟨w', t', performAll_cons hstep hrest, ?_⟩
    rw [List.map_cons, String.join_cons, ← String.append_assoc]
    exact hholds

/-- The text that steps add is the lines of the entries among them. -/
theorem Step.join_text (steps : List Step) :
    String.join (steps.map Step.text) = String.join ((steps.filterMap Step.entry?).map fun e => line e.fields) := by
  induction steps with
  | nil => rfl
  | cons step rest ih =>
    cases step with
    | reopen =>
      have hnone : (.reopen :: rest).filterMap entry? = rest.filterMap entry? := rfl
      rw [List.map_cons, String.join_cons, ih, hnone]
      exact String.empty_append
    | add e =>
      have hsome : (.add e :: rest).filterMap entry? = e :: rest.filterMap entry? := rfl
      rw [List.map_cons, String.join_cons, ih, hsome, List.map_cons, String.join_cons, Step.text]

/-- A record file that was not there holds, after any session that begins by opening it and in which this goes well, one line
with the names of the fields and after it one line for each entry, in the order in which they were added; to open it again adds
nothing. What begins a session is a session too, so this is so at every moment. Each line is cut at its commas into thirteen
fields, none of which has to stand in quotes, and what the first twelve say of an entry is got back from them. -/
theorem session_writes_table (hopen : (openAt Tree.disk p t).1 = .ok w) (habsent : t.nodes[w.handle.place]? = none)
    (steps : List Step) :
    let ended := Step.performAll Tree.disk p (.reopen :: steps) none t
    let entries := steps.filterMap Step.entry?
    ∃ text, ended.2.text? p = some text ∧
      ended.1.1 = List.replicate (steps.length + 1) (.ok ()) ∧
      text = line header ++ String.join (entries.map fun e => line e.fields) ∧
      table text = header :: entries.map Entry.fields ∧
      (∀ row ∈ table text, row.length = 13 ∧ ∀ field ∈ row, ¬NeedsQuotes field) ∧
      (table text).tail.map Row.read = entries.map fun e => some e.row := by
  intro ended entries
  have hfirst := holds_of_openAt hopen habsent
  obtain ⟨w', t', hrest, hholds⟩ := Step.performAll_holds hfirst steps
  have hended : ended = ((.ok () :: List.replicate steps.length (.ok ()), some w'), t') := by
    have hstep : Step.reopen.perform Tree.disk p none t = ((.ok (), some w), (openAt Tree.disk p t).2) := by
      rw [Step.perform, bind_apply, hopen]
      rfl
    exact Step.performAll_cons hstep hrest
  have htable := table_of_entries entries
  refine ⟨_, ?_, ?_, rfl, htable, ?_, ?_⟩
  · rw [hended, ← Step.join_text]
    exact hholds.file.text?
  · rw [hended]
    rfl
  · rw [htable]
    intro row hrow
    refine ⟨length_of_mem_rows entries row hrow, fun field hfield => ?_⟩
    exact not_needsQuotes_of_isPlain (isPlain_of_mem_rows entries row hrow field hfield)
  · rw [htable, List.tail_cons, List.map_map]
    exact List.map_congr_left fun e _ => e.read_fields

/-- A file in a directory that is missing at first, with a row added, the file opened again, and another row added, of a run
that has removed more than there was. -/
theorem session_writes_two_rows :
    let c : Config := ⟨.locked, ⟨2, 100, 0, 50, 30⟩, 2, none⟩
    let p : Path := ⟨["out", "runs.csv"]⟩
    let first : Entry := ⟨c, 0, ⟨5, [], {}, 5, 5, ⟨1, 500000000⟩⟩, by decide⟩
    let second : Entry := ⟨c, 1, ⟨5, [], { succeeded := 100, removes := 8 }, -3, 0, ⟨2, 0⟩⟩, by decide⟩
    let ended := Step.performAll Tree.disk p [.reopen, .add first, .reopen, .add second] none Tree.initial
    ∃ text, ended.2.text? p = some text ∧ ended.1.1 = [.ok (), .ok (), .ok (), .ok ()] ∧
      table text = [header, first.fields, second.fields] ∧
      (table text).tail.map Row.read =
        [some ⟨.locked, 2, 100, 0, 50, 30, 0, 0, 0, 0, 5, 5⟩, some ⟨.locked, 2, 100, 0, 50, 30, 1, 100, 0, 0, -3, 0⟩] := by
  intro c p first second ended
  have hmade : makeRoom Tree.disk p Tree.initial = (.ok (), Tree.initial.set ["out", "work", "tmp"] .directory) := rfl
  have hexisting : (Tree.initial.set ["out", "work", "tmp"] .directory).openExisting p = .error .notFound := rfl
  have hcreate : (Tree.initial.set ["out", "work", "tmp"] .directory).openOrCreate p =
      .ok (⟨["runs.csv", "out", "work", "tmp"], some 0⟩, _) := rfl
  obtain ⟨w, t', hopen, hplace, -⟩ := holds_of_create hmade hexisting hcreate
  have habsent : Tree.initial.nodes[w.handle.place]? = none := by
    rw [hplace]
    rfl
  obtain ⟨text, htext, hresults, -, htable, -, hrows⟩ :=
    session_writes_table (congrArg Prod.fst hopen) habsent [.add first, .reopen, .add second]
  exact ⟨text, htext, hresults, htable, hrows⟩

end TxnBench.Records
