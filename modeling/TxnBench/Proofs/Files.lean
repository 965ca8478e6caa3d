import TxnBench.Fault
import TxnBench.Files.Disk

/-!
# Directories and files of a tree

Where a path leads depends on the directories alone, so a path leads where it did as long as they stay (`Keeps.locate`): files may
be written, and more directories made. What is asked for directories makes those that are missing where the paths above it lead,
and touches nothing else (`GrowsAlong.makeDirectories`); where they are there already, it does nothing (`makeDirectories_again`).

A path that leads to a regular file is opened there every time (`LeadsTo.openExisting`), and what is written at the end of the
file is added to it, be the handle one that appends or one that has come to the end by itself (`write_of_atEnd`).
-/

namespace TxnBench

/-! ## The bytes of a text -/

/-- The list of the bytes of an array is the one that holds them. -/
theorem toList_byteArray (bytes : ByteArray) : bytes.toList = bytes.data.toList := by
  have hloop : ∀ i r, ByteArray.toList.loop bytes i r = r.reverse ++ bytes.data.toList.drop i := by
    intro i r
    fun_induction ByteArray.toList.loop bytes i r with
    | case1 i r h ih =>
      have hi : i < bytes.data.toList.length := h
      have hget : bytes.get! i = bytes.data.toList[i] := getElem!_pos bytes.data i h
      rw [ih, List.drop_eq_getElem_cons hi, hget, List.reverse_cons, List.append_assoc, List.singleton_append]
    | case2 i r h =>
      have hi : bytes.data.toList.length ≤ i := Nat.not_lt.mp h
      rw [List.drop_eq_nil_of_le hi, List.append_nil]
  rw [ByteArray.toList, hloop, List.drop_zero, List.reverse_nil, List.nil_append]

theorem bytesOf_eq (text : String) : bytesOf text = text.toByteArray.data.toList :=
  toList_byteArray _

theorem bytesOf_empty : bytesOf "" = [] := by
  simp [bytesOf_eq]

theorem bytesOf_append (first rest : String) : bytesOf (first ++ rest) = bytesOf first ++ bytesOf rest := by
  simp [bytesOf_eq]

/-- A text that ends a line has bytes. -/
theorem bytesOf_ne_nil_of_ends (text : String) : bytesOf (text ++ "\n") ≠ [] := by
  rw [bytesOf_append]
  exact List.append_ne_nil_of_right_ne_nil _ (by decide +kernel)

/-! ## The directories above a path -/

namespace Path

variable {start : List String} {origin : List Path} {p parent : Path}

/-- The directories above a path that begins with `start`, with those from which it starts. -/
def aboveFrom (start : List String) (origin : List Path) (body : List String) : List Path :=
  match stems start body.reverse with
  | [] => []
  | _ :: outer => outer ++ origin

theorem above_other {pieces : List String} (hroot : ∀ body, pieces ≠ "" :: body) (hdot : ∀ body, pieces ≠ "." :: body) :
    above ⟨pieces⟩ = aboveFrom [] [] pieces := by
  unfold above
  split
  rename_i start origin body hmatch
  dsimp only at hmatch
  split at hmatch
  · exact absurd rfl (hroot _)
  · exact absurd rfl (hdot _)
  · cases hmatch
    rfl

/-- The last piece is not above a path, if it leads somewhere. -/
theorem aboveFrom_reverse {piece : String} (outer : List String) (hloud : isSilent piece = false) :
    aboveFrom start origin (piece :: outer).reverse = stems start outer ++ origin := by
  rw [aboveFrom, List.reverse_reverse, stems, hloud, if_neg Bool.false_ne_true]

/-- The first of the stems ends with a piece that leads somewhere, and the others are those of the pieces before it. -/
theorem of_stems_eq_cons {pieces : List String} {rest : List Path} (h : stems start pieces = p :: rest) :
    ∃ piece outer, isSilent piece = false ∧ p = ⟨start ++ (piece :: outer).reverse⟩ ∧ rest = stems start outer ∧
      (piece :: outer) <:+ pieces := by
  induction pieces with
  | nil => cases h
  | cons piece outer ih =>
    rw [stems] at h
    split at h
    · obtain ⟨piece', outer', hloud, hp, hrest, hsuffix⟩ := ih h
      exact ⟨piece', outer', hloud, hp, hrest, hsuffix.trans (List.suffix_cons piece outer)⟩
    · rename_i hloud
      cases h
      exact ⟨piece, outer, by simpa using hloud, rfl, rfl, List.suffix_rfl⟩

/-- The directories above a path are the innermost of them and those above that, if this holds of its beginnings. -/
theorem aboveFrom_eq_cons (start : List String) (origin : List Path) (body : List String)
    (horigin : ∀ q ∈ origin, origin = [q] ∧ q.above = [])
    (hstem : ∀ inner, inner <+: body → above ⟨start ++ inner⟩ = aboveFrom start origin inner)
    (h : (aboveFrom start origin body).head? = some parent) : aboveFrom start origin body = parent :: parent.above := by
  unfold aboveFrom at h ⊢
  cases hstems : stems start body.reverse with
  | nil =>
    rw [hstems] at h
    cases h
  | cons q rest =>
    rw [hstems] at h
    dsimp only at h ⊢
    obtain ⟨piece, outer, -, -, rfl, hsuffix⟩ := of_stems_eq_cons hstems
    cases hrest : stems start outer with
    | nil =>
      rw [hrest] at h
      obtain ⟨hone, hnone⟩ := horigin parent (List.mem_of_mem_head? h)
      rw [List.nil_append, hone, hnone]
    | cons q' rest' =>
      rw [hrest] at h
      cases h
      obtain ⟨piece', outer', hloud, rfl, rfl, hsuffix'⟩ := of_stems_eq_cons hrest
      have hinner := List.reverse_prefix.mpr (hsuffix'.trans ((List.suffix_cons piece outer).trans hsuffix))
      rw [List.reverse_reverse] at hinner
      rw [hstem _ hinner, aboveFrom_reverse outer' hloud, List.cons_append]

/-- The directories above a path are the innermost of them and those above that. -/
theorem above_of_parent? (h : p.parent? = some parent) : p.above = parent :: parent.above := by
  obtain ⟨pieces⟩ := p
  by_cases hroot : ∃ body, pieces = "" :: body
  · obtain ⟨body, rfl⟩ := hroot
    refine aboveFrom_eq_cons [""] [⟨["", ""]⟩] body ?_ (fun _ _ => rfl) h
    rintro q (_ | ⟨_, ⟨⟩⟩)
    exact ⟨rfl, rfl⟩
  by_cases hdot : ∃ body, pieces = "." :: body
  · obtain ⟨body, rfl⟩ := hdot
    refine aboveFrom_eq_cons ["."] [⟨["."]⟩] body ?_ (fun _ _ => rfl) h
    rintro q (_ | ⟨_, ⟨⟩⟩)
    exact ⟨rfl, rfl⟩
  · have habove := above_other (not_exists.mp hroot) (not_exists.mp hdot)
    rw [parent?, habove] at h
    rw [habove]
    refine aboveFrom_eq_cons [] [] pieces nofun ?_ h
    -- A beginning of the path begins as it does, so it starts neither from the root nor from a dot.
    rintro inner ⟨more, rfl⟩
    refine above_other ?_ ?_
    · rintro body rfl
      exact hroot ⟨body ++ more, rfl⟩
    · rintro body rfl
      exact hdot ⟨body ++ more, rfl⟩

end Path

namespace Tree

variable {t t' : Tree} {p : Path} {place parent : Place} {name : String} {node : Node}

/-! ## What is at a place -/

theorem nodes_set (t : Tree) (place other : Place) (node : Node) :
    (t.set place node).nodes[other]? = if place = other then some node else t.nodes[other]? := by
  simp only [set, Std.ExtTreeMap.getElem?_insert, Std.compare_eq_iff_eq]

theorem nodes_set_self (t : Tree) (place : Place) (node : Node) : (t.set place node).nodes[place]? = some node := by
  rw [nodes_set, if_pos rfl]

/-- A name in a directory is looked up if it is not too long. -/
theorem look_eq_ok_iff {found : Option Node} :
    t.look parent name = .ok found ↔ name.utf8ByteSize ≤ nameLimit ∧ t.nodes[name :: parent]? = found := by
  unfold look
  split
  · rename_i hlong
    exact ⟨nofun, fun h => absurd h.1 (Nat.not_le.mpr hlong)⟩
  · rename_i hshort
    exact ⟨fun h => ⟨Nat.not_lt.mp hshort, Except.ok.inj h⟩, fun h => congrArg Except.ok h.2⟩

/-! ## Where a path leads -/

/-- A name in a directory is a directory if that is what is looked up. -/
theorem isDirectory_iff_of_entry (h : t.locate p = .ok (.entry parent name)) :
    t.isDirectory p = true ↔ t.look parent name = .ok (some .directory) := by
  unfold isDirectory
  rw [h]
  dsimp only
  split
  · rename_i hlook
    exact ⟨fun _ => hlook, fun _ => rfl⟩
  · rename_i hother
    exact ⟨nofun, fun hlook => (hother hlook).elim⟩

/-- A name that is no dots leads on where it is a directory. -/
theorem follow_directory {rest : List String} (hdot : name ≠ ".") (hdots : name ≠ "..")
    (h : t.look place name = .ok (some .directory)) : t.follow place (name :: rest) = t.follow (name :: place) rest := by
  rw [follow.eq_4 _ _ _ _ hdot hdots, h]

/-- The directories of a tree are those of another as well, and both have one working directory. -/
structure Keeps (t t' : Tree) : Prop where
  working : t'.working = t.working
  directories : ∀ {place : Place}, t.nodes[place]? = some Node.directory → t'.nodes[place]? = some Node.directory

namespace Keeps

theorem refl (t : Tree) : Keeps t t :=
  ⟨rfl, id⟩

theorem trans {t'' : Tree} (h : Keeps t t') (h' : Keeps t' t'') : Keeps t t'' :=
  ⟨h'.working.trans h.working, fun hd => h'.directories (h.directories hd)⟩

/-- What is put where there was no directory takes none away. -/
theorem set (node : Node) (h : t.nodes[place]? ≠ some Node.directory) : Keeps t (t.set place node) where
  working := rfl
  directories {other} hd := by
    rw [nodes_set, if_neg]
    · exact hd
    · rintro rfl
      exact h hd

theorem look (h : Keeps t t') (hl : t.look parent name = .ok (some .directory)) :
    t'.look parent name = .ok (some .directory) := by
  obtain ⟨hshort, hd⟩ := look_eq_ok_iff.mp hl
  exact look_eq_ok_iff.mpr ⟨hshort, h.directories hd⟩

theorem follow (h : Keeps t t') {names : List String} {target : Place} (hf : t.follow place names = .ok target) :
    t'.follow place names = .ok target := by
  fun_induction Tree.follow t place names with
  | case1 => exact hf
  | case2 place rest ih => exact ih hf
  | case3 place rest ih => exact ih hf
  | case4 | case5 | case7 => cases hf
  | case6 place name rest hdot hdots hlook ih =>
    rw [follow_directory hdot hdots (h.look hlook)]
    exact ih hf

/-- A path leads where it did. -/
theorem locate (h : Keeps t t') {target : Target} (hl : t.locate p = .ok target) : t'.locate p = .ok target := by
  unfold Tree.locate at hl ⊢
  rw [h.working]
  split at hl
  · cases hl
  · rename_i hnul
    rw [if_neg hnul]
    split at hl
    · cases hl
    · rename_i hempty
      rw [if_neg hempty]
      split at hl
      · cases hl
      · rename_i hlong
        rw [if_neg hlong]
        dsimp only at hl ⊢
        cases hnames : p.names.reverse with
        | nil =>
          rw [hnames] at hl
          exact hl
        | cons last outer =>
          rw [hnames] at hl
          dsimp only at hl ⊢
          cases hfollow : t.follow (if p.absolute then [] else t.working) outer.reverse with
          | error e =>
            rw [hfollow] at hl
            cases hl
          | ok parent =>
            rw [hfollow] at hl
            rw [h.follow hfollow]
            exact hl

theorem isDirectory (h : Keeps t t') (hd : t.isDirectory p = true) : t'.isDirectory p = true := by
  cases hlocate : t.locate p with
  | error e =>
    rw [Tree.isDirectory, hlocate] at hd
    cases hd
  | ok target =>
    cases target with
    | directory place => rw [Tree.isDirectory, h.locate hlocate]
    | entry parent name =>
      have hlook := (isDirectory_iff_of_entry hlocate).mp hd
      exact (isDirectory_iff_of_entry (h.locate hlocate)).mpr (h.look hlook)

end Keeps

/-! ## Making directories -/

/-- A tree has directories that another has not, and is the same in all else. -/
structure Grows (t t' : Tree) : Prop where
  working : t'.working = t.working
  kept : ∀ {place : Place} {node}, t.nodes[place]? = some node → t'.nodes[place]? = some node
  made : ∀ {place : Place} {node}, t'.nodes[place]? = some node → t.nodes[place]? = some node ∨ node = .directory

namespace Grows

theorem refl (t : Tree) : Grows t t :=
  ⟨rfl, id, Or.inl⟩

theorem trans {t'' : Tree} (h : Grows t t') (h' : Grows t' t'') : Grows t t'' where
  working := h'.working.trans h.working
  kept hn := h'.kept (h.kept hn)
  made hn := (h'.made hn).elim h.made Or.inr

theorem keeps (h : Grows t t') : Keeps t t' :=
  ⟨h.working, h.kept⟩

/-- A directory where there was nothing is all that is new. -/
theorem set (h : t.nodes[place]? = none) : Grows t (t.set place .directory) where
  working := rfl
  kept {other node} hn := by
    rw [nodes_set, if_neg]
    · exact hn
    · rintro rfl
      cases h.symm.trans hn
  made {other node} hn := by
    rw [nodes_set] at hn
    split at hn
    · cases hn
      exact Or.inr rfl
    · exact Or.inl hn

end Grows

/-- A directory that is made is put under a name where nothing was. -/
theorem exists_entry_of_makeDirectory (h : t.makeDirectory p = .ok t') :
    ∃ parent name, t.locate p = .ok (.entry parent name) ∧ t.look parent name = .ok none ∧
      t' = t.set (name :: parent) .directory := by
  obtain ⟨target, hlocate, h⟩ := bind_eq_ok_iff.mp h
  cases target with
  | directory place => cases h
  | entry parent name =>
    obtain ⟨found, hlook, h⟩ := bind_eq_ok_iff.mp h
    cases found with
    | some node => cases h
    | none =>
      cases h
      exact ⟨parent, name, hlocate, hlook, rfl⟩

/-- To make a directory is to put one where nothing was, and it is there then. -/
theorem of_makeDirectory (h : t.makeDirectory p = .ok t') : Grows t t' ∧ t'.isDirectory p = true := by
  obtain ⟨parent, name, hlocate, hlook, rfl⟩ := exists_entry_of_makeDirectory h
  obtain ⟨hshort, hnone⟩ := look_eq_ok_iff.mp hlook
  have hgrows := Grows.set hnone
  have hthere : (t.set (name :: parent) .directory).look parent name = .ok (some .directory) :=
    look_eq_ok_iff.mpr ⟨hshort, nodes_set_self ..⟩
  exact ⟨hgrows, (isDirectory_iff_of_entry (hgrows.keeps.locate hlocate)).mpr hthere⟩

/-- A directory that is there is not made. -/
theorem makeDirectory_of_isDirectory (h : t.isDirectory p = true) : t.makeDirectory p = .error .exists := by
  unfold makeDirectory
  cases hlocate : t.locate p with
  | error e =>
    rw [isDirectory, hlocate] at h
    cases h
  | ok target =>
    cases target with
    | directory place => rfl
    | entry parent name =>
      have hlook := (isDirectory_iff_of_entry hlocate).mp h
      change t.look parent name >>= _ = _
      rw [hlook]
      rfl

/-- A path leads to a place: it names what may be there in its directory. -/
def Reaches (t : Tree) (p : Path) (place : Place) : Prop :=
  ∃ parent name, t.locate p = .ok (.entry parent name) ∧ place = name :: parent

/-- A path leads where it did as long as the directories stay. -/
theorem Reaches.mono (h : Reaches t p place) (hkeeps : Keeps t t') : Reaches t' p place := by
  obtain ⟨parent, name, hlocate, hplace⟩ := h
  exact ⟨parent, name, hkeeps.locate hlocate, hplace⟩

/-- What is new in a tree is where one of some paths leads. -/
structure GrowsAlong (paths : List Path) (t t' : Tree) : Prop extends Grows t t' where
  along : ∀ {place : Place} {node}, t'.nodes[place]? = some node →
    t.nodes[place]? = some node ∨ ∃ p ∈ paths, Reaches t' p place

namespace GrowsAlong

variable {paths : List Path}

theorem refl (t : Tree) : GrowsAlong paths t t :=
  ⟨.refl t, Or.inl⟩

theorem trans {t'' : Tree} (h : GrowsAlong paths t t') (h' : GrowsAlong paths t' t'') : GrowsAlong paths t t'' where
  toGrows := h.toGrows.trans h'.toGrows
  along hn := by
    rcases h'.along hn with hn' | hlater
    · exact (h.along hn').imp_right fun ⟨p, hp, hreaches⟩ => ⟨p, hp, hreaches.mono h'.keeps⟩
    · exact Or.inr hlater

/-- What is new is a directory to which a path leads. -/
theorem madeAlong (h : GrowsAlong paths t t') (hn : t'.nodes[place]? = some node) :
    t.nodes[place]? = some node ∨ node = .directory ∧ ∃ p ∈ paths, Reaches t' p place := by
  rcases h.along hn with hbefore | halong
  · exact Or.inl hbefore
  · exact (h.made hn).imp_right fun hdirectory => ⟨hdirectory, halong⟩

/-- More paths lead no less far. -/
theorem mono {others : List Path} (h : GrowsAlong paths t t') (hsub : paths ⊆ others) : GrowsAlong others t t' where
  toGrows := h.toGrows
  along hn := (h.along hn).imp_right fun ⟨p, hp, hreaches⟩ => ⟨p, hsub hp, hreaches⟩

/-- A directory is made where its path leads. -/
theorem of_makeDirectory (hp : p ∈ paths) (h : t.makeDirectory p = .ok t') : GrowsAlong paths t t' where
  toGrows := (Tree.of_makeDirectory h).1
  along {place node} hn := by
    obtain ⟨parent, name, hlocate, -, rfl⟩ := exists_entry_of_makeDirectory h
    rw [nodes_set] at hn
    split at hn
    · rename_i hplace
      exact Or.inr ⟨p, hp, parent, name, (Tree.of_makeDirectory h).1.keeps.locate hlocate, hplace.symm⟩
    · exact Or.inl hn

/-- However far it gets, what is new is where the paths lead. -/
theorem makeAll (paths : List Path) (t : Tree) : GrowsAlong paths t (Tree.makeAll paths t).2 := by
  induction paths generalizing t with
  | nil => exact .refl t
  | cons p above ih =>
    have hmade : ∀ {t₁ t₂ : Tree}, t₁.makeDirectory p = .ok t₂ → GrowsAlong (p :: above) t₁ t₂ :=
      fun hmake => .of_makeDirectory List.mem_cons_self hmake
    have habove := (ih t).mono (List.subset_cons_self p above)
    unfold Tree.makeAll
    split
    · rename_i t₂ hmake
      exact hmade hmake
    · split
      · rename_i e t₁ hmakeAll
        rw [hmakeAll] at habove
        exact habove
      · rename_i t₁ hmakeAll
        rw [hmakeAll] at habove
        split
        · rename_i t₂ hmake
          exact habove.trans (hmade hmake)
        · exact habove
    · exact .refl t

/-- What is new above a directory, and the directory itself, is where paths lead that end above it or with it. -/
theorem makeDirectories (p : Path) (t : Tree) : GrowsAlong (p :: p.above) t (t.makeDirectories p).2 := by
  unfold Tree.makeDirectories
  split
  · exact .refl t
  · exact makeAll _ t

end GrowsAlong

/-- Whatever is asked for, directories are all that is new. -/
theorem grows_makeDirectories (t : Tree) (p : Path) : Grows t (t.makeDirectories p).2 :=
  (GrowsAlong.makeDirectories p t).toGrows

/-- If nothing refuses, the innermost directory is there then. -/
theorem isDirectory_of_makeAll {above : List Path} (h : makeAll (p :: above) t = (.ok (), t')) : t'.isDirectory p = true := by
  unfold makeAll at h
  split at h
  · rename_i t₁ hmake
    cases h
    exact (of_makeDirectory hmake).2
  · split at h
    · cases h
    · split at h
      · rename_i t₂ hmake
        cases h
        exact (of_makeDirectory hmake).2
      · split at h
        · cases h
          assumption
        · cases h
  · split at h
    · cases h
      assumption
    · cases h

/-- What has been made is not made again, as long as the directories stay. -/
theorem makeDirectories_again {t'' : Tree} (h : t.makeDirectories p = (.ok (), t')) (hkeeps : Keeps t' t'') :
    t''.makeDirectories p = (.ok (), t'') := by
  unfold makeDirectories at h ⊢
  split
  · rfl
  · rename_i hp
    rw [if_neg hp] at h
    have hdirectory := hkeeps.isDirectory (isDirectory_of_makeAll h)
    simp only [makeAll, makeDirectory_of_isDirectory hdirectory, hdirectory, if_true]

/-! ## Opening files -/

/-- A path names a place at which there may be a file. -/
structure Names (t : Tree) (p : Path) (place : Place) : Prop where
  located : ∃ parent name, t.locate p = .ok (.entry parent name) ∧ name.utf8ByteSize ≤ nameLimit ∧ place = name :: parent
  untrailing : p.trailing = false

/-- A path names the same place as long as the directories stay. -/
theorem Names.mono (h : Names t p place) (hkeeps : Keeps t t') : Names t' p place where
  located := by
    obtain ⟨parent, name, hlocate, hshort, hplace⟩ := h.located
    exact ⟨parent, name, hkeeps.locate hlocate, hshort, hplace⟩
  untrailing := h.untrailing

/-- A path leads to a regular file at a place. -/
structure LeadsTo (t : Tree) (p : Path) (place : Place) (content : List UInt8) : Prop extends Names t p place where
  there : t.nodes[place]? = some (.regular content)

/-- To open a file that is there is to append to what its path names. -/
theorem of_openExisting {h : Handle} (ho : t.openExisting p = .ok h) :
    h.offset = none ∧ Names t p h.place ∧ ∃ node, t.nodes[h.place]? = some node ∧ node ≠ .directory := by
  obtain ⟨target, hlocate, ho⟩ := bind_eq_ok_iff.mp ho
  cases target with
  | directory place => cases ho
  | entry parent name =>
    obtain ⟨found, hlook, ho⟩ := bind_eq_ok_iff.mp ho
    obtain ⟨hshort, hthere⟩ := look_eq_ok_iff.mp hlook
    cases found with
    | none => cases ho
    | some node =>
      cases node with
      | directory => cases ho
      | regular | sink | fullDevice =>
        dsimp only at ho
        split at ho
        · cases ho
        · rename_i htrailing
          cases ho
          exact ⟨rfl, ⟨⟨parent, name, hlocate, hshort, rfl⟩, by simpa using htrailing⟩, _, hthere, nofun⟩

/-- To open a file from its beginning is to make it, unless it could as well be opened to append. -/
theorem of_openOrCreate {h : Handle} (ho : t.openOrCreate p = .ok (h, t')) :
    h.offset = some 0 ∧
      ((t.nodes[h.place]? = none ∧ t' = t.set h.place (.regular []) ∧ Keeps t t' ∧ LeadsTo t' p h.place []) ∨
        (t' = t ∧ t.openExisting p = .ok ⟨h.place, none⟩)) := by
  obtain ⟨target, hlocate, ho⟩ := bind_eq_ok_iff.mp ho
  cases target with
  | directory place => cases ho
  | entry parent name =>
    cases htrailing : p.trailing with
    | true =>
      rw [htrailing] at ho
      cases ho
    | false =>
      rw [htrailing] at ho
      obtain ⟨found, hlook, ho⟩ := bind_eq_ok_iff.mp ho
      obtain ⟨hshort, hfound⟩ := look_eq_ok_iff.mp hlook
      cases found with
      | none =>
        cases ho
        have hkeeps : Keeps t (t.set (name :: parent) (.regular [])) := .set _ (by rw [hfound]; nofun)
        have hnames : Names t p (name :: parent) := ⟨⟨parent, name, hlocate, hshort, rfl⟩, htrailing⟩
        exact ⟨rfl, Or.inl ⟨hfound, rfl, hkeeps, hnames.mono hkeeps, nodes_set_self ..⟩⟩
      | some node =>
        cases node with
        | directory => cases ho
        | regular | sink | fullDevice =>
          cases ho
          refine ⟨rfl, Or.inr ⟨rfl, bind_eq_ok_iff.mpr ⟨_, hlocate, bind_eq_ok_iff.mpr ⟨_, hlook, ?_⟩⟩⟩⟩
          dsimp only
          rw [htrailing]
          rfl

namespace LeadsTo

variable {content : List UInt8}

/-- A file that is there is opened where its path leads. -/
theorem openExisting (h : LeadsTo t p place content) : t.openExisting p = .ok ⟨place, none⟩ := by
  obtain ⟨⟨⟨parent, name, hlocate, hshort, rfl⟩, htrailing⟩, hthere⟩ := h
  have hlook := look_eq_ok_iff.mpr ⟨hshort, hthere⟩
  refine bind_eq_ok_iff.mpr ⟨_, hlocate, bind_eq_ok_iff.mpr ⟨_, hlook, ?_⟩⟩
  dsimp only
  rw [htrailing]
  rfl

/-- The content of a file is what is where its path leads. -/
theorem content? (h : LeadsTo t p place content) : t.content? p = some content := by
  rw [Tree.content?, h.openExisting]
  dsimp only
  rw [h.there]

/-- A file that is there is given a new content where its path leads. -/
theorem save (h : LeadsTo t p place content) (bytes : List UInt8) : t.save p bytes = .ok (t.set place (.regular bytes)) := by
  obtain ⟨⟨⟨parent, name, hlocate, hshort, rfl⟩, htrailing⟩, hthere⟩ := h
  have hlook := look_eq_ok_iff.mpr ⟨hshort, hthere⟩
  have hopen : t.openOrCreate p = .ok (⟨name :: parent, some 0⟩, t) := by
    refine bind_eq_ok_iff.mpr ⟨_, hlocate, ?_⟩
    dsimp only
    rw [htrailing]
    exact bind_eq_ok_iff.mpr ⟨_, hlook, rfl⟩
  refine bind_eq_ok_iff.mpr ⟨_, hopen, ?_⟩
  dsimp only
  rw [hthere]
  rfl

/-- The text of a file is what its bytes are those of. -/
theorem text? {text : String} (h : LeadsTo t p place (bytesOf text)) : t.text? p = some text := by
  have hbytes : (⟨(bytesOf text).toArray⟩ : ByteArray) = text.toByteArray := by
    rw [bytesOf_eq]
  change (t.content? p >>= fun bytes => String.fromUTF8? ⟨bytes.toArray⟩) = _
  rw [h.content?]
  change String.fromUTF8? ⟨(bytesOf text).toArray⟩ = _
  rw [hbytes, String.fromUTF8?, dif_pos text.isValidUTF8]
  rfl

/-- A file that is changed takes no directory away. -/
theorem keeps (h : LeadsTo t p place content) (content' : List UInt8) : Keeps t (t.set place (.regular content')) := by
  refine .set _ ?_
  rw [h.there]
  nofun

/-- A file that is changed is where it was. -/
theorem set (h : LeadsTo t p place content) (content' : List UInt8) :
    LeadsTo (t.set place (.regular content')) p place content' :=
  ⟨h.toNames.mono (h.keeps content'), nodes_set_self ..⟩

end LeadsTo

/-! ## Writing -/

/-- To write over the end of a file is to add to it. -/
theorem overwrite_length (content bytes : List UInt8) : overwrite content content.length bytes = content ++ bytes := by
  simp [overwrite]

/-- What is written over a file from an offset on is added to it exactly if the offset is its end. -/
theorem overwrite_eq_append_iff {content bytes : List UInt8} {offset : Nat} (hbytes : bytes ≠ []) :
    overwrite content offset bytes = content ++ bytes ↔ content.length = offset := by
  constructor
  · intro h
    have hpos : 0 < bytes.length := List.length_pos_iff.mpr hbytes
    have hlength := congrArg List.length h
    simp only [overwrite, List.length_append, List.length_take, List.length_replicate, List.length_drop] at hlength
    omega
  · rintro rfl
    exact overwrite_length content bytes

/-- What is written over the end of a file takes its place if it is as long. -/
theorem overwrite_append {first old new : List UInt8} (h : old.length = new.length) :
    overwrite (first ++ old) first.length new = first ++ new := by
  simp [overwrite, h]

/-- Bytes written to a regular file are added to it, or written over it from the place of the handle on, which moves with them. -/
theorem write_regular {h : Handle} {content bytes : List UInt8} (hthere : t.nodes[h.place]? = some (.regular content))
    (hbytes : bytes ≠ []) :
    t.write h bytes = .ok (⟨h.place, h.offset.map (· + bytes.length)⟩, t.set h.place (.regular (match h.offset with
      | none => content ++ bytes
      | some offset => overwrite content offset bytes))) := by
  have hempty : bytes.isEmpty = false := by
    simpa using hbytes
  obtain ⟨place, offset⟩ := h
  unfold write
  rw [hempty, if_neg Bool.false_ne_true, hthere]
  cases offset <;> rfl

/-- A handle that appends, or has come to the end of its file. -/
def AtEnd (h : Handle) (content : List UInt8) : Prop :=
  h.offset = none ∨ h.offset = some content.length

/-- What is written at the end of a file is added to it, and the handle is at its end again. -/
theorem write_of_atEnd {h : Handle} {content bytes : List UInt8} (hthere : t.nodes[h.place]? = some (.regular content))
    (hend : AtEnd h content) (hbytes : bytes ≠ []) :
    ∃ h', t.write h bytes = .ok (h', t.set h.place (.regular (content ++ bytes))) ∧ h'.place = h.place ∧
      AtEnd h' (content ++ bytes) := by
  have hwrite := write_regular hthere hbytes
  rcases hend with hoffset | hoffset
  · rw [hoffset] at hwrite
    exact ⟨_, hwrite, rfl, Or.inl rfl⟩
  · rw [hoffset] at hwrite
    dsimp only at hwrite
    rw [overwrite_length] at hwrite
    exact ⟨_, hwrite, rfl, Or.inr (by simp)⟩

/-! ## What others may do -/

/-- What is at a place stays there, but a regular file may come to have another content. -/
structure Endures (t t' : Tree) : Prop where
  working : t'.working = t.working
  kept : ∀ {place : Place} {node}, t.nodes[place]? = some node →
    t'.nodes[place]? = some node ∨ ∃ content content', node = .regular content ∧ t'.nodes[place]? = some (.regular content')

namespace Endures

theorem refl (t : Tree) : Endures t t :=
  ⟨rfl, Or.inl⟩

theorem trans {t'' : Tree} (h : Endures t t') (h' : Endures t' t'') : Endures t t'' where
  working := h'.working.trans h.working
  kept {place node} hn := by
    rcases h.kept hn with hn' | ⟨content, content', rfl, hn'⟩
    · exact h'.kept hn'
    · rcases h'.kept hn' with hn'' | ⟨_, content'', -, hn''⟩
      · exact Or.inr ⟨content, content', rfl, hn''⟩
      · exact Or.inr ⟨content, content'', rfl, hn''⟩

theorem set_regular {content : List UInt8} (content' : List UInt8) (h : t.nodes[place]? = some (.regular content)) :
    Endures t (t.set place (.regular content')) where
  working := rfl
  kept {other node} hn := by
    rw [nodes_set]
    split
    · rename_i hsame
      subst hsame
      cases h.symm.trans hn
      exact Or.inr ⟨content, content', rfl, rfl⟩
    · exact Or.inl hn

theorem set_new (node : Node) (h : t.nodes[place]? = none) : Endures t (t.set place node) where
  working := rfl
  kept {other node'} hn := by
    rw [nodes_set, if_neg]
    · exact Or.inl hn
    · rintro rfl
      cases h.symm.trans hn

theorem keeps (h : Endures t t') : Keeps t t' where
  working := h.working
  directories hd := by
    rcases h.kept hd with hd' | ⟨_, _, hregular, -⟩
    · exact hd'
    · cases hregular

/-- What is no directory stays none. -/
theorem file (h : Endures t t') (hn : ∃ node, t.nodes[place]? = some node ∧ node ≠ .directory) :
    ∃ node, t'.nodes[place]? = some node ∧ node ≠ .directory := by
  obtain ⟨node, hn, hne⟩ := hn
  rcases h.kept hn with hn' | ⟨_, content', -, hn'⟩
  · exact ⟨node, hn', hne⟩
  · exact ⟨.regular content', hn', nofun⟩

/-- Where there is a regular file in the place of something, there was one. -/
theorem regular (h : Endures t t') (hn : t.nodes[place]? = some node) {content' : List UInt8}
    (hregular : t'.nodes[place]? = some (.regular content')) : ∃ content, t.nodes[place]? = some (.regular content) := by
  rcases h.kept hn with hn' | ⟨content, _, rfl, -⟩
  · rw [hn, ← hn', hregular]
    exact ⟨content', rfl⟩
  · exact ⟨content, hn⟩

end Endures

theorem Grows.endures (h : Grows t t') : Endures t t' :=
  ⟨h.working, fun hn => Or.inl (h.kept hn)⟩

/-- To write is to change nothing but the content of a regular file. -/
theorem endures_of_write {h h' : Handle} {bytes : List UInt8} (hwrite : t.write h bytes = .ok (h', t')) :
    Endures t t' ∧ h'.place = h.place := by
  by_cases hbytes : bytes = []
  · subst hbytes
    cases hwrite
    exact ⟨.refl t, rfl⟩
  · cases hthere : t.nodes[h.place]? with
    | none =>
      simp only [write, List.isEmpty_iff, hbytes, if_false, hthere] at hwrite
      cases hwrite
    | some node =>
      cases node with
      | regular content =>
        rw [write_regular hthere hbytes] at hwrite
        cases hwrite
        exact ⟨.set_regular _ hthere, rfl⟩
      | sink =>
        simp only [write, List.isEmpty_iff, hbytes, if_false, hthere] at hwrite
        cases hwrite
        exact ⟨.refl t, rfl⟩
      | directory | fullDevice =>
        simp only [write, List.isEmpty_iff, hbytes, if_false, hthere] at hwrite
        cases hwrite

theorem endures_of_openOrCreate {h : Handle} (ho : t.openOrCreate p = .ok (h, t')) : Endures t t' := by
  obtain ⟨-, ⟨hnone, rfl, -, -⟩ | ⟨rfl, -⟩⟩ := of_openOrCreate ho
  · exact .set_new _ hnone
  · exact .refl _

/-- To give a file a new content is to change no other file. -/
theorem endures_of_save {bytes : List UInt8} (hsave : t.save p bytes = .ok t') : Endures t t' := by
  obtain ⟨⟨handle, t₁⟩, hopen, hsave⟩ := bind_eq_ok_iff.mp hsave
  refine (endures_of_openOrCreate hopen).trans ?_
  dsimp only at hsave
  split at hsave
  · rename_i content hthere
    cases hsave
    exact .set_regular bytes hthere
  · cases hwrite : t₁.write handle bytes with
    | error e =>
      rw [hwrite] at hsave
      cases hsave
    | ok written =>
      rw [hwrite] at hsave
      cases hsave
      exact (endures_of_write hwrite).1

end Tree

end TxnBench
