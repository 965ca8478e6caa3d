import Mathlib.Data.List.Induction
import TxnBench.Proofs.Records.Sessions

/-!
# Record files that others change

While a record file is open, someone else may give it another content. A line that is added then goes to the end of all that is
in the file if the file was there when it was opened. A file that was made by its opening is written from the place on at which
the writer's own lines end: what others have put there is written over, and a file that they have made shorter is filled up
with null bytes (`line_goes_to`). So the line is added to what is there exactly if nobody has changed the length of the file
(`Tree.overwrite_eq_append_iff`), and of two programs that share a new file one may lose its lines (`others_line_is_lost`).
-/

namespace TxnBench.Records

/-- What is done with files: a record file is opened, a line is added through the writer opened last, or someone else gives a
file another content, which may depend on the one it has. -/
inductive Deed where
  | reopen (p : Path)
  | add (e : Entry)
  | change (p : Path) (f : List UInt8 → List UInt8)

/-- The files, and the writer opened last. -/
structure Scene where
  out : Option (Writer Handle)
  tree : Tree

namespace Deed

/-- The entry that a deed adds. -/
def entry? : Deed → Option Entry
  | .add e => some e
  | _ => none

/-- Does something with the files, and says what comes of it. -/
def perform (s : Scene) : Deed → Except BenchError Unit × Scene
  | .reopen p =>
    match openAt Tree.disk p s.tree with
    | (.ok w, t) => (.ok (), ⟨some w, t⟩)
    | (.error e, t) => (.error e, ⟨s.out, t⟩)
  | .add e =>
    let added := Records.add Tree.disk s.out e.config e.run e.report s.tree
    (added.1.1, ⟨added.1.2, added.2⟩)
  | .change p f =>
    match s.tree.save p (f ((s.tree.content? p).getD [])) with
    | .ok t => (.ok (), ⟨s.out, t⟩)
    | .error e => (.error (.file e), ⟨s.out, s.tree⟩)

end Deed

namespace Scene

/-- What deeds lead to, one after another. -/
def after (s : Scene) (deeds : List Deed) : Scene :=
  deeds.foldl (fun s deed => (deed.perform s).2) s

theorem after_append (s : Scene) (first rest : List Deed) : s.after (first ++ rest) = (s.after first).after rest :=
  List.foldl_append

theorem after_concat (s : Scene) (deeds : List Deed) (deed : Deed) :
    s.after (deeds ++ [deed]) = (deed.perform (s.after deeds)).2 :=
  s.after_append deeds [deed]

end Scene

/-- Among some deeds, the last opening that went well is the one of `p`; `earlier` was before it, and `since` after it. -/
structure OpenedLast (s : Scene) (deeds earlier : List Deed) (p : Path) (since : List Deed) : Prop where
  parts : deeds = earlier ++ .reopen p :: since
  opened : ((Deed.reopen p).perform (s.after earlier)).1 = .ok ()
  last : ∀ first q rest, since = first ++ .reopen q :: rest →
    ((Deed.reopen q).perform (s.after (earlier ++ .reopen p :: first))).1 ≠ .ok ()

/-- The lines that deeds add. -/
def lines (deeds : List Deed) : String :=
  String.join ((deeds.filterMap Deed.entry?).map fun e => line e.fields)

/-- A writer of a record file, as its opening and the lines added since have left it. `before` are the files before the
opening; a writer whose file was not among them has its own place in it, at which its lines end. -/
structure Holding (before : Tree) (p : Path) (written : String) (w : Writer Handle) (t : Tree) : Prop where
  names : t.Names p w.handle.place
  there : ∃ node, t.nodes[w.handle.place]? = some node ∧ node ≠ .directory
  fits : ∀ content, t.nodes[w.handle.place]? = some (.regular content) → w.pending = "" ∧
    w.handle.offset = if before.nodes[w.handle.place]?.isNone then some (bytesOf written).length else none

variable {before t t' : Tree} {p : Path} {written : String} {w w' : Writer Handle} {result : Except BenchError Unit}

/-- To add text is to change nothing but the content of the file of the writer. -/
theorem endures_of_add {text : String} (hadd : Writer.add Tree.disk w text t = ((result, w'), t')) :
    Tree.Endures t t' ∧ w'.handle.place = w.handle.place := by
  rw [writer_add_disk] at hadd
  cases hwrite : t.write w.handle (bytesOf (w.pending ++ text)) with
  | ok written =>
    rw [hwrite] at hadd
    cases hadd
    exact Tree.endures_of_write hwrite
  | error e =>
    rw [hwrite] at hadd
    cases hadd
    exact ⟨.refl t, rfl⟩

namespace Holding

/-- What others do to the files does not concern the writer. -/
theorem mono (h : Holding before p written w t) (hendures : t.Endures t') : Holding before p written w t' where
  names := h.names.mono hendures.keeps
  there := hendures.file h.there
  fits content' hregular := by
    obtain ⟨node, hnode, -⟩ := h.there
    obtain ⟨content, hcontent⟩ := hendures.regular hnode hregular
    exact h.fits content hcontent

/-- A line that is added to a regular file goes to its end or to the writer's own place, and the writer has added it. -/
theorem add_regular (h : Holding before p written w t) {content : List UInt8}
    (hregular : t.nodes[w.handle.place]? = some (.regular content)) (row : List String) :
    ∃ w' after, Writer.add Tree.disk w (line row) t = ((.ok (), w'), t.set w.handle.place (.regular after)) ∧
      after = (if before.nodes[w.handle.place]?.isNone
        then Tree.overwrite content (bytesOf written).length (bytesOf (line row)) else content ++ bytesOf (line row)) ∧
      Holding before p (written ++ line row) w' (t.set w.handle.place (.regular after)) := by
  obtain ⟨hpending, hoffset⟩ := h.fits content hregular
  have hrow : bytesOf (line row) ≠ [] := bytesOf_ne_nil_of_ends _
  have hadd := writer_add_disk w (line row) t
  rw [hpending, String.empty_append, Tree.write_regular hregular hrow] at hadd
  refine ⟨_, _, hadd, ?_, h.names.mono (Tree.Endures.set_regular _ hregular).keeps,
    ⟨_, Tree.nodes_set_self .., nofun⟩, fun _ _ => ⟨rfl, ?_⟩⟩
  · rw [hoffset]
    cases before.nodes[w.handle.place]?.isNone <;> rfl
  · dsimp only
    rw [hoffset, bytesOf_append, List.length_append]
    cases before.nodes[w.handle.place]?.isNone <;> rfl

/-- Whatever comes of a line that is added, the writer has passed it on, and what is no regular file is none after it. -/
theorem add (h : Holding before p written w t) (row : List String)
    (hadd : Writer.add Tree.disk w (line row) t = ((result, w'), t')) : Holding before p (written ++ line row) w' t' := by
  by_cases hregular : ∃ content, t.nodes[w.handle.place]? = some (.regular content)
  · obtain ⟨content, hregular⟩ := hregular
    obtain ⟨w₁, after, hadd', -, hholding⟩ := h.add_regular hregular row
    cases hadd'.symm.trans hadd
    exact hholding
  · obtain ⟨hendures, hplace⟩ := endures_of_add hadd
    obtain ⟨node, hnode, hne⟩ := h.there
    refine ⟨hplace ▸ h.names.mono hendures.keeps, hplace ▸ hendures.file h.there, fun content hcontent => ?_⟩
    rw [hplace] at hcontent
    exact absurd (hendures.regular hnode hcontent) hregular

end Holding

/-- An opening that makes its file leaves the names of the fields in it, and a writer that is after them. -/
theorem openAt_create {t₁ t₂ : Tree} {e : FileError} {handle : Handle} (hmade : makeRoom Tree.disk p t = (.ok (), t₁))
    (hexisting : t₁.openExisting p = .error e) (hcreate : t₁.openOrCreate p = .ok (handle, t₂)) :
    openAt Tree.disk p t = (.ok ⟨⟨handle.place, some (bytesOf (line header)).length⟩, ""⟩,
        t₂.set handle.place (.regular (bytesOf (line header)))) ∧
      t.nodes[handle.place]? = none ∧
      (t₂.set handle.place (.regular (bytesOf (line header)))).LeadsTo p handle.place (bytesOf (line header)) := by
  obtain ⟨hoffset, ⟨hnone, -, -, hleads⟩ | ⟨-, hothers⟩⟩ := Tree.of_openOrCreate hcreate
  · refine ⟨?_, ?_, hleads.set _⟩
    · have hheader : bytesOf (line header) ≠ [] := bytesOf_ne_nil_of_ends _
      have hadd := writer_add_disk ⟨handle, ""⟩ (line header) t₂
      rw [String.empty_append, Tree.write_regular hleads.there hheader, hoffset] at hadd
      rw [openAt_disk, hmade]
      dsimp only
      rw [hexisting, hcreate]
      dsimp only
      rw [hadd]
      simp [Tree.overwrite, Except.map]
    · cases hnode : t.nodes[handle.place]? with
      | none => rfl
      | some node => cases hnone.symm.trans ((of_makeRoom hmade).1.kept hnode)
  · cases hexisting.symm.trans hothers

/-- A record file that could be opened is held by its writer, at its end or at the end of what its opening has written. -/
theorem holding_of_openAt (hopen : openAt Tree.disk p t = (.ok w, t')) : Holding t p (line header) w t' := by
  obtain ⟨t₁, hmade, ⟨hexisting, hpending, rfl⟩ | ⟨e, handle, t₂, hexisting, hcreate⟩⟩ := exists_of_openAt hopen
  · obtain ⟨hoffset, hnames, node, hnode, hne⟩ := Tree.of_openExisting hexisting
    refine ⟨hnames, ⟨node, hnode, hne⟩, fun content _ => ⟨hpending, ?_⟩⟩
    -- Only directories were made on the way, so the file was there.
    rcases (of_makeRoom hmade).1.made hnode with hbefore | hdirectory
    · rw [hoffset, hbefore]
      rfl
    · exact absurd hdirectory hne
  · obtain ⟨hcreated, hnone, hleads⟩ := openAt_create hmade hexisting hcreate
    cases hopen.symm.trans hcreated
    refine ⟨hleads.toNames, ⟨_, hleads.there, nofun⟩, fun _ _ => ⟨rfl, ?_⟩⟩
    dsimp only
    rw [hnone]
    rfl

/-- To make room for a file is to make directories above it. -/
theorem growsAlong_makeRoom (p : Path) (t : Tree) : Tree.GrowsAlong p.above t (makeRoom Tree.disk p t).2 := by
  rw [makeRoom_disk]
  cases hparent : p.parent? with
  | none => exact .refl t
  | some parent =>
    rw [Path.above_of_parent? hparent]
    exact .makeDirectories parent t

/-- However far an opening gets, it changes no file that is there but the one it opens. -/
theorem endures_openAt (p : Path) (t : Tree) : Tree.Endures t (openAt Tree.disk p t).2 := by
  rw [openAt_disk]
  have hgrows := (growsAlong_makeRoom p t).endures
  rcases hmade : makeRoom Tree.disk p t with ⟨result, t₁⟩
  rw [hmade] at hgrows
  cases result with
  | error e => exact hgrows
  | ok =>
    refine hgrows.trans ?_
    dsimp only
    cases t₁.openExisting p with
    | ok handle => exact .refl t₁
    | error e =>
      dsimp only
      cases hcreate : t₁.openOrCreate p with
      | error e => exact .refl t₁
      | ok made =>
        obtain ⟨handle, t₂⟩ := made
        refine (Tree.endures_of_openOrCreate hcreate).trans ?_
        have hadd : Writer.add Tree.disk ⟨handle, ""⟩ (line header) t₂ = ((_, _), _) := rfl
        exact (endures_of_add hadd).1

/-! ## Deeds one after another -/

theorem lines_concat (deeds : List Deed) (deed : Deed) :
    lines (deeds ++ [deed]) = lines deeds ++ (deed.entry?.map fun e => line e.fields).getD "" := by
  unfold lines
  rw [List.filterMap_append, List.map_append, String.join_append]
  cases deed with
  | add e => simp [Deed.entry?, String.join]
  | reopen | change => simp [Deed.entry?, String.join, List.filterMap_cons]

namespace Deed

variable {s : Scene}

theorem perform_reopen (hopen : openAt Tree.disk p s.tree = (.ok w, t')) :
    (reopen p).perform s = (.ok (), ⟨some w, t'⟩) := by
  simp only [perform, hopen]

theorem perform_reopen_error {e : BenchError} (hopen : openAt Tree.disk p s.tree = (.error e, t')) :
    (reopen p).perform s = (.error e, ⟨s.out, t'⟩) := by
  simp only [perform, hopen]

theorem perform_add {e : Entry} (hout : s.out = some w)
    (hadd : Writer.add Tree.disk w (line e.fields) s.tree = ((result, w'), t')) :
    (add e).perform s = (result, ⟨some w', t'⟩) := by
  have hrecord : Records.add Tree.disk (some w) e.config e.run e.report s.tree = ((result, some w'), t') := by
    change ((Writer.add Tree.disk w (line e.fields)) >>= fun added => pure (added.1, some added.2)) s.tree = _
    rw [bind_apply, hadd]
    rfl
  obtain ⟨out, tree⟩ := s
  cases hout
  exact congrArg (fun added => (added.1.1, Scene.mk added.1.2 added.2)) hrecord

/-- What others do leaves the writer as it is, and changes no file but the one they change. -/
theorem perform_change (p : Path) (f : List UInt8 → List UInt8) :
    ((change p f).perform s).2.out = s.out ∧ s.tree.Endures ((change p f).perform s).2.tree := by
  simp only [perform]
  split
  · rename_i t' hsave
    exact ⟨rfl, Tree.endures_of_save hsave⟩
  · exact ⟨rfl, .refl s.tree⟩

end Deed

/-- A deed that is no opening that went well leaves the last of these what it was. -/
theorem OpenedLast.extend {s : Scene} {deeds earlier since : List Deed} (h : OpenedLast s deeds earlier p since) {deed : Deed}
    (hdeed : ∀ q, deed = .reopen q → (deed.perform (s.after deeds)).1 ≠ .ok ()) :
    OpenedLast s (deeds ++ [deed]) earlier p (since ++ [deed]) where
  parts := by rw [h.parts, List.append_assoc, List.cons_append]
  opened := h.opened
  last first q rest hsince := by
    rcases List.eq_nil_or_concat rest with rfl | ⟨rest, last, rfl⟩
    · obtain ⟨rfl, hlast⟩ := List.append_inj' hsince rfl
      cases hlast
      rw [← h.parts]
      exact hdeed q rfl
    · rw [List.concat_eq_append, ← List.cons_append, ← List.append_assoc] at hsince
      exact h.last first q rest (List.append_inj' hsince rfl).1

/-- After deeds that have left a writer there is an opening that was the last to go well, and the writer is the one it gave. -/
theorem exists_openedLast (t : Tree) (deeds : List Deed) {w : Writer Handle}
    (hw : (Scene.after ⟨none, t⟩ deeds).out = some w) :
    ∃ earlier p since, OpenedLast ⟨none, t⟩ deeds earlier p since ∧
      Holding (Scene.after ⟨none, t⟩ earlier).tree p (line header ++ lines since) w
        (Scene.after ⟨none, t⟩ deeds).tree := by
  induction deeds using List.reverseRecOn generalizing w with
  | nil => cases hw
  | append_singleton deeds deed ih =>
    rw [Scene.after_concat] at hw ⊢
    cases deed with
    | reopen p =>
      rcases hopen : openAt Tree.disk p (Scene.after ⟨none, t⟩ deeds).tree with ⟨result, t'⟩
      cases result with
      | ok w₁ =>
        have hperform := Deed.perform_reopen hopen
        rw [hperform] at hw ⊢
        cases hw
        refine ⟨deeds, p, [], ⟨rfl, by rw [hperform], fun first q rest h => ?_⟩, ?_⟩
        · cases List.append_eq_nil_iff.mp h.symm |>.2
        · exact holding_of_openAt hopen
      | error e =>
        have hperform := Deed.perform_reopen_error hopen
        have hendures := endures_openAt p (Scene.after ⟨none, t⟩ deeds).tree
        rw [hopen] at hendures
        rw [hperform] at hw ⊢
        obtain ⟨earlier, p', since, hlast, hholding⟩ := ih hw
        refine ⟨earlier, p', since ++ [.reopen p], hlast.extend ?_, ?_⟩
        · rintro q ⟨⟩
          rw [hperform]
          nofun
        · rw [lines_concat]
          exact (String.append_empty (s := lines since)).symm ▸ hholding.mono hendures
    | add e =>
      cases hout : (Scene.after ⟨none, t⟩ deeds).out with
      | none =>
        have hnone : ((Deed.add e).perform (Scene.after ⟨none, t⟩ deeds)).2.out = none := by
          unfold Deed.perform
          rw [hout]
          rfl
        cases hw.symm.trans hnone
      | some w₁ =>
        rcases hadd : Writer.add Tree.disk w₁ (line e.fields) (Scene.after ⟨none, t⟩ deeds).tree with
          ⟨⟨result, w'⟩, t'⟩
        rw [Deed.perform_add hout hadd] at hw ⊢
        cases hw
        obtain ⟨earlier, p, since, hlast, hholding⟩ := ih hout
        refine ⟨earlier, p, since ++ [.add e], hlast.extend (fun q (h : Deed.add e = .reopen q) => nomatch h), ?_⟩
        rw [lines_concat, ← String.append_assoc]
        exact hholding.add e.fields hadd
    | change p f =>
      obtain ⟨hout, hendures⟩ := Deed.perform_change (s := Scene.after ⟨none, t⟩ deeds) p f
      rw [hout] at hw
      obtain ⟨earlier, p', since, hlast, hholding⟩ := ih hw
      refine ⟨earlier, p', since ++ [.change p f], hlast.extend (fun q (h : Deed.change p f = .reopen q) => nomatch h), ?_⟩
      rw [lines_concat]
      exact (String.append_empty (s := lines since)).symm ▸ hholding.mono hendures

/-- Whatever has been done with files before, in whatever order, a line that is added to a regular file is added without failing
and nothing but the content of the file that was opened last is changed. If the file was there when it was opened, the line is
added to all that is in it. If it was made by its opening, the line is written over what is in it from the place on at which
the lines of this writer end. So it is added to what is in the file, complete and with nothing damaged, exactly if the file was
there or is just as long as this writer has made it. -/
theorem line_goes_to (t : Tree) (deeds : List Deed) {w : Writer Handle} (hw : (Scene.after ⟨none, t⟩ deeds).out = some w)
    {content : List UInt8} (hregular : (Scene.after ⟨none, t⟩ deeds).tree.nodes[w.handle.place]? = some (.regular content))
    (e : Entry) :
    let s : Scene := ⟨none, t⟩
    let found := s.after deeds
    let added := (Deed.add e).perform found
    let row := bytesOf (line e.fields)
    ∃ earlier p since, OpenedLast s deeds earlier p since ∧
      let made := (s.after earlier).tree.nodes[w.handle.place]? = none
      let own := (bytesOf (line header ++ lines since)).length
      ∃ after, added.1 = .ok () ∧ added.2.tree = found.tree.set w.handle.place (.regular after) ∧
        found.tree.content? p = some content ∧ added.2.tree.content? p = some after ∧
        (¬made → after = content ++ row) ∧ (made → after = Tree.overwrite content own row) ∧
        (after = content ++ row ↔ (made → content.length = own)) := by
  intro s found added row
  obtain ⟨earlier, p, since, hlast, hholding⟩ := exists_openedLast t deeds hw
  refine ⟨earlier, p, since, hlast, ?_⟩
  intro made own
  obtain ⟨w', after, hadd, hafter, hholding'⟩ := hholding.add_regular hregular e.fields
  have hperform : added = (.ok (), ⟨some w', found.tree.set w.handle.place (.regular after)⟩) := Deed.perform_add hw hadd
  have hleads : found.tree.LeadsTo p w.handle.place content := ⟨hholding.names, hregular⟩
  have hrow : row ≠ [] := bytesOf_ne_nil_of_ends _
  have hold : ¬made → after = content ++ row := by
    intro hthere
    rw [hafter, if_neg fun hnone => hthere (Option.isNone_iff_eq_none.mp hnone)]
  have hnew : made → after = Tree.overwrite content own row := by
    intro hnone
    rw [hafter, if_pos (Option.isNone_iff_eq_none.mpr hnone)]
  rw [hperform]
  refine ⟨after, rfl, rfl, hleads.content?, (hleads.set after).content?, hold, hnew, ?_⟩
  by_cases hmade : made
  · rw [hnew hmade, Tree.overwrite_eq_append_iff hrow]
    exact ⟨fun h _ => h, fun h => h hmade⟩
  · exact ⟨fun _ h => absurd h hmade, fun _ => hold hmade⟩

/-- A record file that its opening has made and that others have changed since. -/
theorem after_create_change {t₁ t₂ : Tree} {e : FileError} {handle : Handle} (hmade : makeRoom Tree.disk p t = (.ok (), t₁))
    (hexisting : t₁.openExisting p = .error e) (hcreate : t₁.openOrCreate p = .ok (handle, t₂))
    (f : List UInt8 → List UInt8) :
    ∃ t₃, Scene.after ⟨none, t⟩ [.reopen p, .change p f] =
        ⟨some ⟨⟨handle.place, some (bytesOf (line header)).length⟩, ""⟩, t₃⟩ ∧
      t₃.LeadsTo p handle.place (f (bytesOf (line header))) := by
  obtain ⟨hopen, -, hleads⟩ := openAt_create hmade hexisting hcreate
  have hfirst : (Deed.reopen p).perform ⟨none, t⟩ = _ := Deed.perform_reopen hopen
  refine ⟨_, ?_, hleads.set (f (bytesOf (line header)))⟩
  change ((Deed.change p f).perform ((Deed.reopen p).perform ⟨none, t⟩).2).2 = _
  rw [hfirst]
  simp only [Deed.perform, hleads.content?, Option.getD_some, hleads.save]
  rfl

/-- Someone else replaces what is in a new record file by a shorter text; then the line does not follow this text. -/
theorem line_goes_past_shorter_text :
    let p : Path := ⟨["runs.csv"]⟩
    let deeds : List Deed := [.reopen p, .change p fun _ => bytesOf "note\n"]
    let e : Entry := ⟨⟨.striped, ⟨1, 10, 1, 50, 50⟩, 1, none⟩, 0, ⟨1, [], {}, 1, 1, ⟨0, 0⟩⟩, by decide⟩
    let found := Scene.after ⟨none, Tree.initial⟩ deeds
    let added := (Deed.add e).perform found
    found.tree.content? p = some (bytesOf "note\n") ∧ added.1 = .ok () ∧
      added.2.tree.content? p = some (Tree.overwrite (bytesOf "note\n") (bytesOf (line header)).length (bytesOf (line e.fields))) ∧
      added.2.tree.content? p ≠ some (bytesOf "note\n" ++ bytesOf (line e.fields)) := by
  intro p deeds e found added
  have hmade : makeRoom Tree.disk p Tree.initial = (.ok (), Tree.initial) := rfl
  have hexisting : Tree.initial.openExisting p = .error .notFound := rfl
  have hcreate : Tree.initial.openOrCreate p = .ok (⟨["runs.csv", "work", "tmp"], some 0⟩, _) := rfl
  obtain ⟨t₃, hfound, hleads⟩ := after_create_change hmade hexisting hcreate fun _ => bytesOf "note\n"
  have hfound : found = ⟨some ⟨⟨["runs.csv", "work", "tmp"], some (bytesOf (line header)).length⟩, ""⟩, t₃⟩ := hfound
  have hregular : found.tree.nodes[(["runs.csv", "work", "tmp"] : Place)]? = some (.regular (bytesOf "note\n")) := by
    rw [hfound]
    exact hleads.there
  obtain ⟨earlier, p', since, hlast, after, hok, -, hbefore, hafter, -, hnew, hiff⟩ :=
    line_goes_to Tree.initial deeds (congrArg Scene.out hfound) hregular e
  obtain ⟨rfl, rfl, rfl⟩ : earlier = [] ∧ p' = p ∧ since = [.change p fun _ => bytesOf "note\n"] := by
    have hparts : [Deed.reopen p, .change p fun _ => bytesOf "note\n"] = earlier ++ .reopen p' :: since := hlast.parts
    cases earlier with
    | nil =>
      cases hparts
      exact ⟨rfl, rfl, rfl⟩
    | cons first rest =>
      obtain ⟨-, hrest⟩ := List.cons.inj hparts
      cases rest with
      | nil => cases hrest
      | cons second rest => cases List.append_eq_nil_iff.mp (List.cons.inj hrest).2.symm |>.2
  have hown : line header ++ lines [.change p fun _ => bytesOf "note\n"] = line header := String.append_empty
  rw [hown] at hnew hiff
  have hlength : (bytesOf "note\n").length ≠ (bytesOf (line header)).length := by decide +kernel
  refine ⟨hbefore, hok, ?_, ?_⟩
  · rw [hafter, hnew rfl]
  · rw [hafter]
    intro hsame
    exact hlength (hiff.mp (Option.some.inj hsame) rfl)

/-- Someone else adds a line to a new record file, and a line added after it takes its place: of the two there is one. -/
theorem others_line_is_lost :
    let p : Path := ⟨["runs.csv"]⟩
    let e : Entry := ⟨⟨.striped, ⟨1, 10, 1, 50, 50⟩, 1, none⟩, 0, ⟨1, [], {}, 1, 1, ⟨0, 0⟩⟩, by decide⟩
    let found := Scene.after ⟨none, Tree.initial⟩ [.reopen p, .change p (· ++ bytesOf (line e.fields))]
    let added := (Deed.add e).perform found
    found.tree.content? p = some (bytesOf (line header) ++ bytesOf (line e.fields)) ∧ added.1 = .ok () ∧
      added.2.tree.content? p = some (bytesOf (line header) ++ bytesOf (line e.fields)) ∧
      added.2.tree.content? p ≠ some (bytesOf (line header) ++ bytesOf (line e.fields) ++ bytesOf (line e.fields)) := by
  intro p e found added
  have hmade : makeRoom Tree.disk p Tree.initial = (.ok (), Tree.initial) := rfl
  have hexisting : Tree.initial.openExisting p = .error .notFound := rfl
  have hcreate : Tree.initial.openOrCreate p = .ok (⟨["runs.csv", "work", "tmp"], some 0⟩, _) := rfl
  obtain ⟨t₃, hfound, hleads⟩ := after_create_change hmade hexisting hcreate (· ++ bytesOf (line e.fields))
  have hfound : found = ⟨some ⟨⟨["runs.csv", "work", "tmp"], some (bytesOf (line header)).length⟩, ""⟩, t₃⟩ := hfound
  have hrow : bytesOf (line e.fields) ≠ [] := bytesOf_ne_nil_of_ends _
  have hholding : Holding Tree.initial p (line header) ⟨⟨["runs.csv", "work", "tmp"], some (bytesOf (line header)).length⟩, ""⟩ t₃ :=
    ⟨hleads.toNames, ⟨_, hleads.there, nofun⟩, fun _ _ => ⟨rfl, rfl⟩⟩
  obtain ⟨w', after, hadd, hafter, -⟩ := hholding.add_regular hleads.there e.fields
  have hperform : added = (.ok (), ⟨some w', _⟩) := Deed.perform_add (congrArg Scene.out hfound) (by rw [hfound]; exact hadd)
  have hover : after = bytesOf (line header) ++ bytesOf (line e.fields) :=
    hafter.trans ((if_pos rfl).trans (Tree.overwrite_append rfl))
  rw [hperform, hfound]
  refine ⟨hleads.content?, rfl, ?_, ?_⟩
  · rw [← hover]
    exact (hleads.set after).content?
  · rw [(hleads.set after).content?, hover]
    intro hsame
    exact hrow (List.append_right_eq_self.mp (Option.some.inj hsame).symm)

end TxnBench.Records
