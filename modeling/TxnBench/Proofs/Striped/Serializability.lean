import TxnBench.Proofs.Striped.Sessions

/-!
# Serializability of the striped collection

The transactions that commit can be put in an order in which, run one after another on a plain map, they answer as they did
and leave the entries the collection ends with (`strictly_serializable`). A transaction that writes has its place at its
commit, and one that does not has its place where it began, so the order also respects which transaction ended before which
began.

The proof follows the schedule. At every event the calls that have their place there lead the entries before it to the
entries after it (`replays_placedAt`): a commit that publishes replays what its transaction did before, and the beginning of
a transaction that writes nothing replays what it goes on to do (`replays_ahead`).
-/

namespace TxnBench.Striped

variable {K V Name : Type} [Ord K] [Std.TransOrd K] [Std.LawfulEqOrd K] [DecidableEq K] [DecidableEq Name] {n : Nat}
  {place : K → Fin n} {σ : Session (collection (V := V) place) Name}

/-- What a transaction that commits and writes nothing goes on to do can be replayed where it began, together with what it
has done before. -/
theorem replays_ahead (hs : Sound place σ.state) {t : Name} {x : Txn K V n} {s₀ : Striped K V n}
    {calls later : List (Call K V)} (hx : σ.txn? t = some x) (h : Live place s₀ calls x σ.state)
    {schedule : List (Name × Action K V)} (ha : madeUntilCommit t (σ.events schedule) = some later)
    (hw : (calls ++ later).any Call.writes = false) : Replays s₀.contents (calls ++ later) s₀.contents := by
  induction schedule generalizing σ x calls later with
  | nil => cases ha
  | cons step rest ih =>
    obtain ⟨u, a⟩ := step
    rw [Session.events_cons, madeUntilCommit] at ha
    split at ha
    · -- the transaction ends here, with a commit that went through
      split at ha
      · cases ha
        rw [List.append_nil] at hw ⊢
        exact h.replays_start (h.tracks.writeSet_eq_empty.mpr hw)
      · cases ha
    · rename_i hd
      obtain ⟨made, hmade, rfl⟩ := Option.map_eq_some_iff.mp ha
      obtain ⟨x', hx', hl⟩ := live_perform hs hx h (Bool.eq_false_iff.mpr hd)
      rw [← List.append_assoc] at hw ⊢
      exact ih (sound_perform hs u a).1 hx' hl hmade hw

/-- The calls that have their place at an event lead the entries before it to the entries after it. -/
theorem replays_placedAt {earlier : List (Event Name K V)} (h : Chronicle place earlier σ) (t : Name) (a : Action K V)
    (rest : List (Name × Action K V)) :
    Replays (contents (n := n) σ.state)
      (placedAt earlier ⟨t, a, (σ.perform t a).1⟩ ((σ.perform t a).2.events rest))
      (contents (n := n) (σ.perform t a).2.state) := by
  cases a with
  | get | contains | put | remove | drop => exact (contents_perform t (by nofun)).symm
  | start =>
    have hsame := contents_perform (σ := σ) t (a := .start) nofun
    simp only [placedAt]
    cases ha : madeUntilCommit t ((σ.perform t .start).2.events rest) with
    | none => exact hsame.symm
    | some calls =>
      rw [Option.getD_some]
      split
      · exact hsame.symm
      · rename_i hw
        have hs := (sound_perform h.sound t .start).1
        rw [hsame]
        exact replays_ahead hs (txn?_perform_start t) (Live.start h.sound) ha (Bool.eq_false_iff.mpr hw)
  | commit =>
    simp only [placedAt]
    cases hx : σ.txn? t with
    | none =>
      rw [σ.perform_of_none hx .commit (by simp)]
      rfl
    | some x =>
      obtain ⟨s₀, hl⟩ := h.live t x hx
      have hempty := hl.tracks.writeSet_eq_empty
      rcases perform_commit_cases h.sound hx with ⟨hw, ha, hs⟩ | ⟨-, i, -, ha, hs⟩ | ⟨hw, ho, ha, hs⟩
      · rw [ha, hempty.mp hw]
        exact congrArg (contents (n := n)) hs.symm
      · rw [ha]
        exact (contents_ticked (n := n) σ.state).symm.trans (congrArg (contents (n := n)) hs.symm)
      · rw [ha, (Bool.not_eq_false _).mp (hempty.not.mp hw), hs]
        exact hl.replays_written h.sound ho

/-- The calls of all transactions that commit, in the serial order, lead the entries at the beginning to those at the end. -/
theorem replays_serialFrom {earlier : List (Event Name K V)} (h : Chronicle place earlier σ)
    (schedule : List (Name × Action K V)) :
    Replays (contents (n := n) σ.state) (serialFrom earlier (σ.events schedule))
      (contents (n := n) (σ.performAll schedule).2.state) := by
  induction schedule generalizing σ earlier with
  | nil => rfl
  | cons step rest ih =>
    obtain ⟨t, a⟩ := step
    rw [Session.events_cons, serialFrom]
    exact (replays_placedAt h t a rest).append (ih (h.perform t a))

/-- The striped collection is strictly serializable, whatever was committed before and however transactions are interleaved:
the calls that went through for transactions that commit, one transaction after another, each that writes placed at its
commit and each other where it began, can be replayed on a plain map, with the answers they had, from the entries at the
beginning to those at the end. -/
theorem strictly_serializable (place : K → Fin n) (before schedule : List (Name × Action K V)) :
    let σ := Session.quietAfter (collection place) before
    let final : Striped K V n := (σ.performAll schedule).2.state
    Replays (contents (n := n) σ.state) (serialFrom [] (σ.events schedule)) final.contents ∧
      (∀ k, final.contents[k]? = final.find place k) ∧ final.contents.size = final.size := by
  intro σ final
  have hs : Sound place σ.state := sound_quietAfter before
  have hfinal : Sound place final := sound_performAll hs schedule
  exact ⟨replays_serialFrom (Chronicle.quiet hs) schedule, hfinal.getElem?_contents, hfinal.size_contents⟩

/-- Four transactions on two stripes: the second and the third write and commit, the third over what the first has read, and
the first, which writes nothing, still has its place at its beginning. -/
theorem serial_order_of_overlap :
    let place : Nat → Fin 2 := fun k => Fin.ofNat 2 k
    let before : List (Nat × Action Nat Nat) := [(0, .start), (0, .put 1 10), (0, .commit)]
    let schedule : List (Nat × Action Nat Nat) :=
      [(1, .start), (2, .start), (1, .get 1), (2, .put 2 30), (3, .start), (3, .remove 1), (2, .commit), (3, .commit),
        (4, .start), (4, .put 3 7), (1, .commit), (4, .drop)]
    let σ := Session.quietAfter (collection place) before
    serialFrom [] (σ.events schedule) =
        [⟨.get 1, .value (some 10)⟩, ⟨.put 2 30, .value none⟩, ⟨.remove 1, .value (some 10)⟩] ∧
      Replays (contents (n := 2) σ.state) (serialFrom [] (σ.events schedule))
        (contents (n := 2) (σ.performAll schedule).2.state) :=
  ⟨by decide +kernel, (strictly_serializable (fun k => Fin.ofNat 2 k) _ _).1⟩

end TxnBench.Striped
