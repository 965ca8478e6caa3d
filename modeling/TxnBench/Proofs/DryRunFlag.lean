import TxnBench.Proofs.CommandLine

/-!
# The flag of a dry run

A command line that is accepted asks for a dry run exactly if `--dry-run` is one of its texts, wherever that stands
(`Request.dryRun_iff_mem`). An option takes no text for its value that looks like an option, so the flag is never one; and where no
options are looked for any more, a text is read as a number, which the flag is not.

Apart from the flag no text touches it: the argument that has begun, and those still to come, are others (`Scan.Orderly`).
-/

namespace TxnBench

namespace Token

/-- The flag looks like a name after two dashes. -/
theorem of_dryRun : Token.of "--dry-run" = .long "dry-run" none := by
  decide +kernel

/-- A text that looks like a name after two dashes is just that. -/
theorem eq_of_long {text name : String} (h : Token.of text = .long name none) : text = "--" ++ name := by
  unfold Token.of at h
  split at h
  · cases h
  · rename_i body _ hchars
    dsimp only at h
    split at h
    · rename_i hdrop
      have hbody : body.takeWhile (· ≠ '=') = body :=
        (List.takeWhile_prefix _).eq_of_length_le (List.drop_eq_nil_iff.mp hdrop)
      cases h
      apply String.toList_injective
      simp only [hbody, hchars, String.toList_append, String.toList_ofList]
      rfl
    · cases h
  · cases h
  · cases h

end Token

namespace Argument

variable {a : Argument} {v v' : Values} {text : String}

/-- The value of another argument leaves the flag alone. -/
theorem dryRun_of_store (ha : a ≠ .dryRun) (h : a.store v text = .ok v') : v'.dryRun = v.dryRun := by
  cases a with
  | dryRun => exact absurd rfl ha
  | output =>
    cases h
    rfl
  | threads | tasks | perTxn | inserts | removes | collection | seed | runs =>
    obtain ⟨_, -, h⟩ := bind_eq_ok_iff.mp h
    cases h
    rfl

/-- The flag is no number. -/
theorem store_dryRun_ne_ok (ha : a ∈ byPlace) : a.store v "--dry-run" ≠ .ok v' := by
  have hword : ∀ b : Argument, ∀ n, b.readWord "--dry-run" ≠ .ok n := nofun
  have hpercent : ∀ b : Argument, ∀ n, b.readPercent "--dry-run" ≠ .ok n := nofun
  intro h
  cases a with
  | threads | tasks | perTxn =>
    obtain ⟨n, hn, -⟩ := bind_eq_ok_iff.mp h
    exact hword _ n hn
  | inserts | removes =>
    obtain ⟨n, hn, -⟩ := bind_eq_ok_iff.mp h
    exact hpercent _ n hn
  | collection | seed | runs | output | dryRun => revert ha; decide

end Argument

namespace Scan

variable {s s' : Scan} {a : Argument} {text : String} {rest : List String}

/-- What was scanned is what there is to go on with. -/
theorem of_some_map {x : Except UsageError Scan} (h : some <$> x = .ok (some s)) : x = .ok s := by
  cases x with
  | error e => cases h
  | ok s₁ =>
    cases h
    rfl

/-- Where no options are looked for, the argument that has begun is read before anything else. -/
theorem exists_settle_of_places? (h : places? rest s = .ok s') : ∃ s₁, s.settle = .ok s₁ := by
  cases rest with
  | nil => exact ⟨s', h⟩
  | cons text rest =>
    obtain ⟨s₁, hplace, -⟩ := bind_eq_ok_iff.mp h
    unfold place at hplace
    split at hplace
    · cases hplace
    · obtain ⟨s₂, hsettle, -⟩ := bind_eq_ok_iff.mp hplace
      exact ⟨s₂, hsettle⟩

/-- The argument that has begun is not the flag, and those still to come are told by their place. -/
structure Orderly (s : Scan) : Prop where
  pending : ∀ {a value}, s.pending = some (a, value) → a ≠ .dryRun
  places : ∀ {a}, a ∈ s.places → a ∈ Argument.byPlace

/-- The argument that a letter stands for is not the flag. -/
theorem ne_dryRun_of_letter {letter : Char} (h : Argument.ofLetter? letter = some a) : a ≠ .dryRun := by
  rintro rfl
  unfold Argument.ofLetter? at h
  split at h <;> cases h

namespace Orderly

/-- To take in another argument leaves the flag alone. -/
theorem take (hs : s.Orderly) (ha : a ≠ .dryRun) (h : s.take a text = .ok s') :
    s'.Orderly ∧ s'.values.dryRun = s.values.dryRun := by
  obtain ⟨values, hstore, rfl⟩ := of_take h
  exact ⟨⟨hs.pending, hs.places⟩, Argument.dryRun_of_store ha hstore⟩

/-- To end the argument that has begun leaves the flag alone. -/
theorem settle (hs : s.Orderly) (h : s.settle = .ok s') :
    s'.Orderly ∧ s'.values.dryRun = s.values.dryRun := by
  unfold Scan.settle at h
  split at h
  · cases h
    exact ⟨hs, rfl⟩
  · cases h
  · rename_i a value hpending
    have hcleared : Orderly { s with pending := none } := ⟨nofun, hs.places⟩
    exact hcleared.take (hs.pending hpending) h

/-- A text that is taken for an argument told by its place is kept to be read. -/
theorem place (hs : s.Orderly) (h : s.place text = .ok s') :
    s'.Orderly ∧ s'.values.dryRun = s.values.dryRun ∧ ∃ a ∈ Argument.byPlace, s'.pending = some (a, some text) := by
  unfold Scan.place at h
  split at h
  · cases h
  · rename_i a places hplaces
    obtain ⟨s₁, hsettle, h⟩ := bind_eq_ok_iff.mp h
    cases h
    obtain ⟨-, hsame⟩ := hs.settle hsettle
    have ha : a ∈ Argument.byPlace := hs.places (hplaces ▸ List.mem_cons_self)
    refine ⟨⟨?_, fun hb => hs.places (hplaces ▸ List.mem_cons_of_mem a hb)⟩, hsame, a, ha, rfl⟩
    rintro _ _ ⟨⟩ rfl
    revert ha
    decide

/-- A text that looks like no option leaves the flag alone. -/
theorem plain (hs : s.Orderly) (h : s.plain text = .ok s') : s'.Orderly ∧ s'.values.dryRun = s.values.dryRun := by
  unfold Scan.plain at h
  split at h
  · rename_i a hpending
    cases h
    refine ⟨⟨?_, hs.places⟩, rfl⟩
    rintro _ _ ⟨⟩
    exact hs.pending hpending
  · obtain ⟨horderly, hsame, -⟩ := hs.place h
    exact ⟨horderly, hsame⟩

/-- To begin another option leaves the flag alone. -/
theorem option (hs : s.Orderly) (ha : a ≠ .dryRun) {attached : List Char} (h : s.option a attached = .ok s') :
    s'.Orderly ∧ s'.values.dryRun = s.values.dryRun := by
  obtain ⟨s₁, hsettle, h⟩ := bind_eq_ok_iff.mp h
  obtain ⟨hs₁, hsame⟩ := hs.settle hsettle
  split at h
  · cases h
    refine ⟨⟨?_, hs₁.places⟩, hsame⟩
    rintro _ _ ⟨⟩
    exact ha
  · obtain ⟨horderly, htake⟩ := hs₁.take ha h
    exact ⟨horderly, htake.trans hsame⟩
  · obtain ⟨horderly, htake⟩ := hs₁.take ha h
    exact ⟨horderly, htake.trans hsame⟩

/-- A text among options sets the flag if it is the flag, and leaves it alone if not. -/
theorem of_text (hs : s.Orderly) (h : s.text text (Token.of text) = .ok (some s')) :
    s'.Orderly ∧ (s'.values.dryRun = true ↔ s.values.dryRun = true ∨ text = "--dry-run") := by
  have hother : Token.of text ≠ .long "dry-run" none → (s'.Orderly ∧ s'.values.dryRun = s.values.dryRun) →
      s'.Orderly ∧ (s'.values.dryRun = true ↔ s.values.dryRun = true ∨ text = "--dry-run") := by
    rintro hne ⟨horderly, hsame⟩
    have htext : text ≠ "--dry-run" := by
      rintro rfl
      exact hne Token.of_dryRun
    exact ⟨horderly, by simp [hsame, htext]⟩
  unfold Scan.text at h
  split at h
  · rename_i htoken
    obtain ⟨s₁, hsettle, h⟩ := bind_eq_ok_iff.mp h
    obtain ⟨s₂, htake, h⟩ := bind_eq_ok_iff.mp h
    cases h
    obtain ⟨hs₁, -⟩ := hs.settle hsettle
    obtain ⟨values, hstore, rfl⟩ := of_take htake
    cases hstore
    exact ⟨⟨hs₁.pending, hs₁.places⟩, by simp [Token.eq_of_long htoken]⟩
  · obtain ⟨_, -, h⟩ := bind_eq_ok_iff.mp h
    cases h
  · split at h <;> cases h
  · cases h
  · obtain ⟨_, -, h⟩ := bind_eq_ok_iff.mp h
    cases h
  · rename_i htoken
    split at h
    · rename_i a hletter
      exact hother (htoken ▸ nofun) (hs.option (ne_dryRun_of_letter hletter) (of_some_map h))
    · cases h
  · rename_i htoken
    exact hother (htoken ▸ nofun) (hs.plain (of_some_map h))
  · rename_i htoken
    exact hother (htoken ▸ nofun) (hs.plain (of_some_map h))

/-- Where no options are looked for, the flag is not among the texts. -/
theorem of_places? (hs : s.Orderly) (h : places? rest s = .ok s') :
    s'.values.dryRun = s.values.dryRun ∧ "--dry-run" ∉ rest := by
  induction rest generalizing s with
  | nil => exact ⟨(hs.settle h).2, List.not_mem_nil⟩
  | cons text rest ih =>
    obtain ⟨s₁, hplace, hread⟩ := bind_eq_ok_iff.mp h
    obtain ⟨hs₁, hsame, a, ha, hpending⟩ := hs.place hplace
    obtain ⟨hrest, hnot⟩ := ih hs₁ hread
    refine ⟨hrest.trans hsame, ?_⟩
    have htext : text ≠ "--dry-run" := by
      rintro rfl
      obtain ⟨s₂, hsettle⟩ := exists_settle_of_places? hread
      rw [Scan.settle, hpending] at hsettle
      obtain ⟨values, hstore, -⟩ := of_take hsettle
      exact Argument.store_dryRun_ne_ok ha hstore
    simp [htext.symm, hnot]

/-- The texts that are left set the flag if it is among them. -/
theorem of_texts? (hs : s.Orderly) (h : texts? rest s = .ok (some s')) :
    s'.values.dryRun = true ↔ s.values.dryRun = true ∨ "--dry-run" ∈ rest := by
  induction rest generalizing s with
  | nil =>
    rw [(hs.settle (of_some_map h)).2]
    simp
  | cons text rest ih =>
    unfold texts? at h
    split at h
    · rename_i htoken
      obtain ⟨hsame, hnot⟩ := hs.of_places? (of_some_map h)
      have htext : text ≠ "--dry-run" := by
        rintro rfl
        cases htoken.symm.trans Token.of_dryRun
      rw [hsame]
      simp [htext.symm, hnot]
    · obtain ⟨scanned, htext, h⟩ := bind_eq_ok_iff.mp h
      cases scanned with
      | none => cases h
      | some s₁ =>
        obtain ⟨hs₁, hflag⟩ := hs.of_text htext
        rw [ih hs₁ h, hflag, List.mem_cons, or_assoc, eq_comm (a := text)]

end Orderly

end Scan

/-- A command line that is accepted asks for a dry run exactly if the flag is one of its texts. -/
theorem Request.dryRun_iff_mem {texts : List String} {v : Values} (h : Request.parse texts = .ok (.run v)) :
    v.dryRun = true ↔ "--dry-run" ∈ texts := by
  obtain ⟨scanned, hscan, h⟩ := bind_eq_ok_iff.mp h
  have horderly : Scan.Orderly {} := ⟨nofun, id⟩
  cases scanned with
  | none => cases h
  | some s =>
    dsimp only at h
    split at h
    · cases h
      simpa using horderly.of_texts? hscan
    · cases h

end TxnBench
