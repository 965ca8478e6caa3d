import TxnBench.Proofs.Striped.Conflicts
import TxnBench.Proofs.Striped.Representation

/-!
# Finer stripes

To divide the stripes up turns down no transaction that went through before (`finer_stripes_agree`). The two runs have different
stripes, and their transactions have read different ones. They are related by `join`, which says of every fine stripe which coarse
one it is a part of: a transaction on the fine stripes has read parts of stripes only that were read on the coarse ones, and a fine
stripe has changed since the transaction began only if the coarse one has (`Refines`). So a commit or a read that goes through on
the coarse stripes finds nothing in its way on the fine ones.
-/

namespace TxnBench.Striped

variable {K V : Type} [Ord K] {m n : Nat} {fine : K → Fin m} {coarse : K → Fin n} {join : Fin m → Fin n}
  {s : Striped K V m} {s' : Striped K V n} {x y : Txn K V m} {x' y' : Txn K V n}

/-! ## Transactions on fine and on coarse stripes -/

/-- The transaction `x`, on fine stripes, has the writes of `x'`, on coarse ones. It has read parts of stripes only that `x'` has
read, and parts of stripes only have changed since it began that have changed since `x'` began. -/
structure Refines (join : Fin m → Fin n) (s : Striped K V m) (s' : Striped K V n) (x : Txn K V m) (x' : Txn K V n) : Prop where
  writeSet : x.writeSet = x'.writeSet
  readSet : ∀ i ∈ x.readSet, join i ∈ x'.readSet
  began_le : x'.began ≤ s'.clock
  changed : ∀ i, x.began < (s.word i).version → x'.began < (s'.word (join i)).version

/-- Both sides note that they have read a stripe, and a part of it. -/
theorem Refines.noted (h : Refines join s s' x x') (i : Fin m) : Refines join s s' (x.noted i) (x'.noted (join i)) where
  writeSet := h.writeSet
  readSet j hj := by
    simp only [Txn.noted, Std.ExtTreeSet.mem_insert, Std.compare_eq_iff_eq] at hj ⊢
    exact hj.imp (congrArg join) (h.readSet j)
  began_le := h.began_le
  changed := h.changed

variable [Std.TransOrd K]

/-- Both sides hold one more write. -/
theorem Refines.holding (h : Refines join s s' x x') (k : K) (w : Option (Option V)) :
    Refines join s s' (x.holding k w) (x'.holding k w) := by
  cases w with
  | none => exact h
  | some v => exact ⟨congrArg (·.insert k v) h.writeSet, h.readSet, h.began_le, h.changed⟩

/-- Two sound states, on fine and on coarse stripes, with the same entries. -/
structure SameEntries (fine : K → Fin m) (coarse : K → Fin n) (s : Striped K V m) (s' : Striped K V n) : Prop where
  sound : Sound fine s
  sound' : Sound coarse s'
  contents : s.contents = s'.contents

/-- Nothing has changed since transactions began that have just begun. -/
theorem SameEntries.start (h : SameEntries fine coarse s s') : Refines join s s' s.start s'.start where
  writeSet := rfl
  readSet _ hi := absurd hi Std.ExtTreeSet.not_mem_empty
  began_le := Nat.le_refl _
  changed i hi := absurd (h.sound.version_le i) (Nat.not_le.mpr hi)

variable [Std.LawfulEqOrd K] [DecidableEq K]

/-- There is nothing in fine stripes and nothing in coarse ones. -/
theorem SameEntries.empty (fine : K → Fin m) (coarse : K → Fin n) :
    SameEntries fine coarse (Striped.empty K V m) (Striped.empty K V n) where
  sound := sound_empty fine
  sound' := sound_empty coarse
  contents := (contents_empty fine).trans (contents_empty coarse).symm

omit [DecidableEq K] in
/-- There are as many entries. -/
theorem SameEntries.size_eq (h : SameEntries fine coarse s s') : s.size = s'.size := by
  rw [← h.sound.size_contents, ← h.sound'.size_contents, h.contents]

/-- At every key the same is found. -/
theorem SameEntries.find_eq (h : SameEntries fine coarse s s') (k : K) : s.find fine k = s'.find coarse k := by
  rw [← h.sound.getElem?_contents, ← h.sound'.getElem?_contents, h.contents]

namespace Refines

/-- A read that goes through on coarse stripes has the same answer on fine ones. -/
theorem read (h : Refines join s s' x x') (hs : SameEntries fine coarse s s') {k : K} (hjoin : join (fine k) = coarse k)
    (hok : ∀ why, (Striped.read coarse x' s' k).1 ≠ .abort why) :
    (Striped.read fine x s k).1 = (Striped.read coarse x' s' k).1 ∧
      Refines join s s' (Striped.read fine x s k).2 (Striped.read coarse x' s' k).2 := by
  have hread := read_cases fine hs.sound x k
  rw [h.writeSet] at hread
  rcases read_cases coarse hs.sound' x' k with ⟨held, hk, hr'⟩ | ⟨-, -, hr'⟩ | ⟨hk, hv, hr'⟩
  · simp only [hk, reduceCtorEq, false_and, or_false, Option.some.injEq, exists_eq_left'] at hread
    rw [hread, hr']
    exact ⟨rfl, h⟩
  · rw [hr'] at hok
    exact absurd rfl (hok _)
  · -- Had the fine stripe changed, so would have the coarse one of which it is a part.
    have hfresh : ¬x.began < (s.word (fine k)).version := fun hchanged =>
      absurd (hjoin ▸ h.changed (fine k) hchanged) (Nat.not_lt.mpr hv)
    simp only [hk, reduceCtorEq, false_and, exists_false, hfresh, and_false, true_and, false_or] at hread
    rw [hread.2, hr', hs.find_eq k, ← hjoin]
    exact ⟨rfl, h.noted (fine k)⟩

/-- A call that goes through on coarse stripes has the same answer on fine ones. -/
theorem call (h : Refines join s s' x x') (hs : SameEntries fine coarse s s') {a : Action K V} {k : K} (ha : a.key? = some k)
    (hjoin : join (fine k) = coarse k) (hok : ∀ why, ((collection coarse).call x' s' a).1 ≠ .aborted why) :
    ((collection fine).call x s a).1 = ((collection coarse).call x' s' a).1 ∧
      Refines join s s' ((collection fine).call x s a).2.1 ((collection coarse).call x' s' a).2.1 := by
  rw [call_eq coarse x' s' ha] at hok
  obtain ⟨hreply, hrefines⟩ := h.read hs hjoin fun why hr => by
    rcases hr' : Striped.read coarse x' s' k with ⟨reply, t⟩
    rw [hr'] at hr hok
    dsimp only at hr
    subst hr
    exact hok why rfl
  rw [call_eq fine x s ha, call_eq coarse x' s' ha]
  rcases hr : Striped.read fine x s k with ⟨reply, t⟩
  rcases hr' : Striped.read coarse x' s' k with ⟨reply', t'⟩
  rw [hr, hr'] at hreply hrefines
  cases hreply
  cases reply with
  | value previous => exact ⟨rfl, hrefines.holding k _⟩
  | abort why => exact ⟨rfl, hrefines⟩
  | fault f => exact ⟨rfl, hrefines⟩

omit [Std.LawfulEqOrd K] [DecidableEq K] in
/-- What validates on coarse stripes does so on fine ones. -/
theorem outdated (h : Refines join s s' x x') (hs : SameEntries fine coarse s s') (hvalid : s'.outdated x' = none) :
    s.outdated x = none := by
  cases ho : s.outdated x with
  | none => rfl
  | some i =>
    obtain ⟨hread, hchanged⟩ := (hs.sound.outdated_eq_some_iff.mp ho).1
    have hcoarse : ∃ j, j ∈ x'.readSet ∧ x'.began < (s'.word j).version :=
      ⟨join i, h.readSet i hread, h.changed i hchanged⟩
    obtain ⟨j, hj⟩ := exists_isLeast hcoarse
    cases hvalid.symm.trans (hs.sound'.outdated_eq_some_iff.mpr hj)

omit [DecidableEq K] in
/-- Others stay as they were related when a commit has published on both sides. -/
theorem written (h : Refines join s s' x x') (hjoin : ∀ k, join (fine k) = coarse k) (hy : y.writeSet = y'.writeSet) :
    Refines join (s.written fine y) (s'.written coarse y') x x' where
  writeSet := h.writeSet
  readSet := h.readSet
  began_le := (clock_written coarse s' y').symm ▸ Nat.le_succ_of_le h.began_le
  changed i hi := by
    rw [word_written]
    split
    · exact Nat.lt_succ_of_le h.began_le
    · rename_i hcoarse
      -- A coarse stripe that was not written to has no part that was, so the fine one has the word it had.
      have hfine : i ∉ writeStripes fine y := fun hmem => hcoarse <| by
        obtain ⟨k, hk, rfl⟩ := (mem_writeStripes fine).mp hmem
        exact (mem_writeStripes coarse).mpr ⟨k, hy ▸ hk, (hjoin k).symm⟩
      rw [word_written, if_neg hfine] at hi
      exact h.changed i hi

/-- A commit that goes through on coarse stripes does so on fine ones; it leaves the same entries, and all others related as they
were. -/
theorem commit (h : Refines join s s' x x') (hs : SameEntries fine coarse s s') (hjoin : ∀ k, join (fine k) = coarse k)
    (hok : ∀ why, ((collection coarse).commit x' s').1 ≠ .abort why) :
    ((collection fine).commit x s).1 = ((collection coarse).commit x' s').1 ∧
      SameEntries (m := m) (n := n) fine coarse ((collection fine).commit x s).2 ((collection coarse).commit x' s').2 ∧
      ∀ y y', Refines join s s' y y' →
        Refines (m := m) (n := n) join ((collection fine).commit x s).2 ((collection coarse).commit x' s').2 y y' := by
  rcases commit_cases hs.sound' x' with ⟨hw', hc'⟩ | ⟨-, i, -, hc'⟩ | ⟨hw', ho', hc'⟩
  · rw [commit_of_empty (h.writeSet.trans hw'), hc']
    exact ⟨rfl, hs, fun _ _ hy => hy⟩
  · rw [hc'] at hok
    exact absurd rfl (hok _)
  · rcases commit_cases hs.sound x with ⟨hw, -⟩ | ⟨-, i, ho, -⟩ | ⟨-, -, hc⟩
    · exact absurd (h.writeSet.symm.trans hw) hw'
    · cases ho.symm.trans (h.outdated hs ho')
    · rw [hc, hc']
      refine ⟨rfl, ⟨hs.sound.written x, hs.sound'.written x', ?_⟩, fun y y' hy => hy.written hjoin h.writeSet⟩
      rw [hs.sound.contents_written, hs.sound'.contents_written, hs.contents, h.writeSet]

end Refines

/-! ## Sessions on fine and on coarse stripes -/

variable {Name : Type} [DecidableEq Name] {σ τ : Session (collection (V := V) fine) Name}
  {σ' τ' : Session (collection (V := V) coarse) Name}

/-- Neither session has a transaction of `t`, or that on the fine stripes refines that on the coarse ones. -/
def Paired (join : Fin m → Fin n) (σ : Session (collection (V := V) fine) Name) (σ' : Session (collection (V := V) coarse) Name)
    (t : Name) : Prop :=
  (σ.txn? t = none ∧ σ'.txn? t = none) ∨
    ∃ (x : Txn K V m) (x' : Txn K V n), σ.txn? t = some x ∧ σ'.txn? t = some x' ∧ Refines join σ.state σ'.state x x'

/-- The session on fine stripes has the entries of that on coarse ones, and its transactions refine the others. -/
structure Divides (join : Fin m → Fin n) (σ : Session (collection (V := V) fine) Name)
    (σ' : Session (collection (V := V) coarse) Name) : Prop where
  entries : SameEntries (m := m) (n := n) fine coarse σ.state σ'.state
  paired : ∀ t, Paired join σ σ' t

namespace Divides

omit [Std.LawfulEqOrd K] [DecidableEq K] in
/-- A step under the name `t` keeps sessions related if it keeps the transactions of others so, and those of `t` are. -/
theorem extend (h : Divides join σ σ') (t : Name) (a : Action K V)
    (hentries : SameEntries (m := m) (n := n) fine coarse (σ.perform t a).2.state (σ'.perform t a).2.state)
    (hkeep : ∀ (y : Txn K V m) (y' : Txn K V n), Refines join σ.state σ'.state y y' →
      Refines join (σ.perform t a).2.state (σ'.perform t a).2.state y y')
    (ht : Paired join (σ.perform t a).2 (σ'.perform t a).2 t) :
    Divides join (σ.perform t a).2 (σ'.perform t a).2 := by
  refine ⟨hentries, ?_⟩
  intro u
  by_cases e : u = t
  · rw [e]
    exact ht
  · unfold Paired
    rw [σ.txn?_perform_of_ne e, σ'.txn?_perform_of_ne e]
    exact (h.paired u).imp_right fun ⟨x, x', hx, hx', hr⟩ => ⟨x, x', hx, hx', hkeep x x' hr⟩

omit [Std.LawfulEqOrd K] [DecidableEq K] in
/-- An action that is no commit keeps the entries, and the transactions of others as they were related. -/
theorem extend_of_ne_commit (h : Divides join σ σ') (t : Name) {a : Action K V} (ha : a ≠ .commit)
    (ht : Paired join (σ.perform t a).2 (σ'.perform t a).2 t) :
    Divides join (σ.perform t a).2 (σ'.perform t a).2 := by
  have hs : (σ.perform t a).2.state = σ.state := state_perform t ha
  have hs' : (σ'.perform t a).2.state = σ'.state := state_perform t ha
  refine h.extend t a ?_ ?_ ht
  · rw [hs, hs']
    exact h.entries
  · rw [hs, hs']
    exact fun _ _ hy => hy

/-- A call of paired transactions that goes through on coarse stripes. -/
theorem call (h : Divides join σ σ') (hjoin : ∀ k, join (fine k) = coarse k) {t : Name} {x : Txn K V m} {x' : Txn K V n}
    (hx : σ.txn? t = some x) (hx' : σ'.txn? t = some x') (hr : Refines join σ.state σ'.state x x') {a : Action K V} {k : K}
    (hk : a.key? = some k) (hok : ∀ why, (σ'.perform t a).1 ≠ .aborted why) :
    (σ.perform t a).1 = (σ'.perform t a).1 ∧ Divides join (σ.perform t a).2 (σ'.perform t a).2 := by
  have ha : a ≠ .commit := by
    rintro rfl
    cases hk
  have hs : (σ.perform t a).2.state = σ.state := state_perform t ha
  have hs' : (σ'.perform t a).2.state = σ'.state := state_perform t ha
  have hkey : a.key?.isSome := by
    rw [hk]
    rfl
  have hp := σ.perform_call hx hkey
  have hp' := σ'.perform_call hx' hkey
  rw [hp'] at hok
  obtain ⟨hanswer, hcall⟩ := hr.call h.entries hk (hjoin k) hok
  have hpaired : Paired join (σ.perform t a).2 (σ'.perform t a).2 t :=
    Or.inr ⟨_, _, σ.txn?_perform_call hx hkey, σ'.txn?_perform_call hx' hkey, by rw [hs, hs']; exact hcall⟩
  exact ⟨by rw [hp, hp']; exact hanswer, h.extend_of_ne_commit t ha hpaired⟩

/-- A commit of paired transactions that goes through on coarse stripes. -/
theorem commit (h : Divides join σ σ') (hjoin : ∀ k, join (fine k) = coarse k) {t : Name} {x : Txn K V m} {x' : Txn K V n}
    (hx : σ.txn? t = some x) (hx' : σ'.txn? t = some x') (hr : Refines join σ.state σ'.state x x')
    (hok : ∀ why, (σ'.perform t .commit).1 ≠ .aborted why) :
    (σ.perform t .commit).1 = (σ'.perform t .commit).1 ∧
      Divides join (σ.perform t .commit).2 (σ'.perform t .commit).2 := by
  have hp := σ.perform_commit hx
  have hp' := σ'.perform_commit hx'
  rw [hp'] at hok
  obtain ⟨hreply, hentries, hkeep⟩ := hr.commit h.entries hjoin fun why hreply => hok why (congrArg Answer.ofUnit hreply)
  refine ⟨by rw [hp, hp', hreply], h.extend t .commit ?_ ?_ (Or.inl ?_)⟩
  · rw [hp, hp']
    exact hentries
  · rw [hp, hp']
    exact hkeep
  · exact ⟨σ.txn?_perform_of_end t (Or.inl rfl), σ'.txn?_perform_of_end t (Or.inl rfl)⟩

/-- An action that goes through on coarse stripes has the same answer on fine ones, and leaves the sessions related. -/
theorem perform (h : Divides join σ σ') (hjoin : ∀ k, join (fine k) = coarse k) (t : Name) (a : Action K V)
    (hok : ∀ why, (σ'.perform t a).1 ≠ .aborted why) :
    (σ.perform t a).1 = (σ'.perform t a).1 ∧ Divides join (σ.perform t a).2 (σ'.perform t a).2 := by
  by_cases ha : a = .start
  · subst ha
    refine ⟨rfl, h.extend_of_ne_commit t nofun (Or.inr ?_)⟩
    exact ⟨_, _, txn?_perform_start t, txn?_perform_start t, h.entries.start⟩
  rcases h.paired t with ⟨hx, hx'⟩ | ⟨x, x', hx, hx', hr⟩
  · rw [σ.perform_of_none hx a ha, σ'.perform_of_none hx' a ha]
    exact ⟨rfl, h⟩
  · cases a with
    | start => exact absurd rfl ha
    | get | contains | put | remove => exact h.call hjoin hx hx' hr rfl hok
    | commit => exact h.commit hjoin hx hx' hr hok
    | drop =>
      refine ⟨by rw [σ.perform_drop hx, σ'.perform_drop hx'], h.extend_of_ne_commit t nofun (Or.inl ?_)⟩
      exact ⟨σ.txn?_perform_of_end t (Or.inr rfl), σ'.txn?_perform_of_end t (Or.inr rfl)⟩

/-- A schedule of which all actions go through on coarse stripes has the same answers on fine ones, and leaves the sessions
related. -/
theorem performAll (h : Divides join σ σ') (hjoin : ∀ k, join (fine k) = coarse k) (schedule : List (Name × Action K V))
    (hok : ∀ answer ∈ (σ'.performAll schedule).1, ∀ why, answer ≠ .aborted why) :
    (σ.performAll schedule).1 = (σ'.performAll schedule).1 ∧
      Divides join (σ.performAll schedule).2 (σ'.performAll schedule).2 := by
  induction schedule generalizing σ σ' with
  | nil => exact ⟨rfl, h⟩
  | cons step rest ih =>
    obtain ⟨t, a⟩ := step
    obtain ⟨hfirst, hrest⟩ := List.forall_mem_cons.mp hok
    obtain ⟨hanswer, hstep⟩ := h.perform hjoin t a hfirst
    obtain ⟨hanswers, hdivides⟩ := ih hstep hrest
    exact ⟨congrArg₂ List.cons hanswer hanswers, hdivides⟩

end Divides

/-! ## Stripes told by a hash -/

variable [ByteKey K]

omit [Ord K] [Std.TransOrd K] [Std.LawfulEqOrd K] [DecidableEq K] in
/-- The stripe of a key among some stripes is told by its stripe among a multiple of them. -/
theorem exists_join {n m : Nat} (hn : 0 < n) (hm : 0 < m) (hd : n ∣ m) :
    ∃ join : Fin (max m 1) → Fin (max n 1), ∀ k : K, join (home m k) = home n k := by
  refine ⟨fun i => ⟨i % n, (Nat.mod_lt _ hn).trans_le (Nat.le_max_left n 1)⟩, ?_⟩
  intro k
  have hmax : max n 1 = n := Nat.max_eq_left hn
  have hmax' : max m 1 = m := Nat.max_eq_left hm
  apply Fin.ext
  change (home m k : Nat) % n = (home n k : Nat)
  rw [val_home, val_home, hmax, hmax', Nat.mod_mod_of_dvd _ hd]

/-- A schedule of which no action is turned down on some stripes has the same answers on a multiple of them, and leaves the same
entries. -/
theorem hashed_agree {n m : Nat} (hn : 0 < n) (hm : 0 < m) (hd : n ∣ m) (schedule : List (Name × Action K V))
    (hok : ∀ answer ∈ ((Session.fresh (hashed K V n) Name).performAll schedule).1, ∀ why, answer ≠ .aborted why) :
    let coarse := (Session.fresh (hashed K V n) Name).performAll schedule
    let fine := (Session.fresh (hashed K V m) Name).performAll schedule
    fine.1 = coarse.1 ∧ (∀ k, (hashed K V m).find fine.2.state k = (hashed K V n).find coarse.2.state k) ∧
      (hashed K V m).size fine.2.state = (hashed K V n).size coarse.2.state := by
  intro coarse fine
  obtain ⟨join, hjoin⟩ := exists_join (K := K) hn hm hd
  have hfresh : Divides join (Session.fresh (collection (K := K) (V := V) (home m)) Name)
      (Session.fresh (collection (K := K) (V := V) (home n)) Name) :=
    ⟨SameEntries.empty (home m) (home n), fun _ => Or.inl ⟨rfl, rfl⟩⟩
  obtain ⟨hanswers, hdivides⟩ := hfresh.performAll hjoin schedule hok
  exact ⟨hanswers, hdivides.entries.find_eq, congrArg UInt64.ofNat hdivides.entries.size_eq⟩

variable (K V Name) in
/-- Finer stripes turn nobody down. Let some stripes be divided up into a multiple of them. If the address space could not hold so
many, they are not made, and that is a fault. Otherwise both collections are made, and whatever schedule is taken of which no action
is turned down on the coarse stripes: on the fine ones it has the same answers, so none is turned down there either, and it leaves
the same entries, and the same number of them. -/
theorem finer_stripes_agree {n m : UInt64} (hn : 0 < n) (hm : 0 < m) (hd : n.toNat ∣ m.toNat) :
    (Capacity.limit < m.toNat * stripeBytes → sized K V m = .error .capacity) ∧
    (m.toNat * stripeBytes ≤ Capacity.limit → ∃ few many : Collection K V, sized K V n = .ok few ∧ sized K V m = .ok many ∧
      ∀ schedule : List (Name × Action K V),
        let coarse := (Session.fresh few Name).performAll schedule
        let fine := (Session.fresh many Name).performAll schedule
        (∀ answer ∈ coarse.1, ∀ why, answer ≠ .aborted why) →
          fine.1 = coarse.1 ∧ (∀ answer ∈ fine.1, ∀ why, answer ≠ .aborted why) ∧
            (∀ k, many.find fine.2.state k = few.find coarse.2.state k) ∧
            many.size fine.2.state = few.size coarse.2.state) := by
  refine ⟨fun hlimit => sized_eq_error_iff.mpr ⟨hlimit, rfl⟩, fun hroom => ?_⟩
  have hn' : 0 < n.toNat := UInt64.lt_iff_toNat_lt.mp hn
  have hm' : 0 < m.toNat := UInt64.lt_iff_toNat_lt.mp hm
  have hroom' : n.toNat * stripeBytes ≤ Capacity.limit :=
    Nat.le_trans (Nat.mul_le_mul_right stripeBytes (Nat.le_of_dvd hm' hd)) hroom
  refine ⟨_, _, sized_eq_ok_iff.mpr ⟨hroom', rfl⟩, sized_eq_ok_iff.mpr ⟨hroom, rfl⟩, ?_⟩
  intro schedule coarse fine hok
  obtain ⟨hanswers, hentries, hsize⟩ := hashed_agree hn' hm' hd schedule hok
  change fine.1 = coarse.1 at hanswers
  exact ⟨hanswers, hanswers ▸ hok, hentries, hsize⟩

/-- Two stripes, each divided into three. While one transaction commits in the one stripe, another has read in the other; a third
reads what the first has left while the second commits. No one is turned down. -/
theorem two_stripes_divided_by_three :
    let schedule : List (Nat × Action UInt64 UInt64) :=
      [(0, .start), (1, .start), (0, .put 2 20), (1, .put 0 10), (0, .put 6 60), (0, .commit), (2, .start), (1, .remove 1),
        (2, .get 2), (1, .commit), (2, .contains 3), (2, .commit)]
    ∃ few many, sized UInt64 UInt64 2 = .ok few ∧ sized UInt64 UInt64 6 = .ok many ∧
      let coarse := (Session.fresh few Nat).performAll schedule
      let fine := (Session.fresh many Nat).performAll schedule
      coarse.1 = [.done, .done, .value none, .value none, .value none, .done, .done, .value none, .value (some 20), .done,
          .present false, .done] ∧
        fine.1 = coarse.1 ∧ many.find fine.2.state 6 = some 60 ∧ many.size fine.2.state = 3 := by
  intro schedule
  have hroom : (6 : UInt64).toNat * stripeBytes ≤ Capacity.limit := by decide
  obtain ⟨few, many, hfew, hmany, hagree⟩ :=
    (finer_stripes_agree UInt64 UInt64 Nat (n := 2) (m := 6) (by decide) (by decide) (by decide)).2 hroom
  refine ⟨few, many, hfew, hmany, ?_⟩
  obtain ⟨-, rfl⟩ := sized_eq_ok_iff.mp hfew
  obtain ⟨-, rfl⟩ := sized_eq_ok_iff.mp hmany
  intro coarse fine
  have hanswers : coarse.1 = [.done, .done, .value none, .value none, .value none, .done, .done, .value none, .value (some 20),
      .done, .present false, .done] := by decide +kernel
  have hok : ∀ answer ∈ coarse.1, ∀ why, answer ≠ .aborted why := by
    simp [hanswers]
  obtain ⟨hsame, -, hfind, hsize⟩ := hagree schedule hok
  refine ⟨hanswers, hsame, (hfind 6).trans ?_, hsize.trans ?_⟩
  · decide +kernel
  · decide +kernel

/-- One stripe can be divided into more than the address space holds. What goes through on the one does not on those, since they
are not made. -/
theorem one_stripe_divided_too_often :
    let schedule : List (Nat × Action UInt64 UInt64) := [(0, .start), (0, .put 1 10), (0, .commit)]
    let n : UInt64 := 1
    let m : UInt64 := 144115188075855872
    n.toNat ∣ m.toNat ∧
      (∃ few, sized UInt64 UInt64 n = .ok few ∧
        ((Session.fresh few Nat).performAll schedule).1 = [.done, .value none, .done]) ∧
      sized UInt64 UInt64 m = .error .capacity := by
  intro schedule n m
  refine ⟨Nat.one_dvd _, ⟨_, sized_eq_ok_iff.mpr ⟨by decide, rfl⟩, ?_⟩, sized_eq_error_iff.mpr ⟨by decide, rfl⟩⟩
  decide +kernel

end TxnBench.Striped
