import TxnBench.Proofs.Histories

/-!
# Collections used by one transaction at a time

A `Sequential` says what a collection is to transactions that do not overlap. While none is open, the collection holds the
entries of a plain map. An open transaction began on one such map and sees another, on which its calls are carried out; a
call that is refused changes nothing of what it sees. A commit that goes through keeps what the transaction sees, and
everything else discards it.

Transactions that run one after another follow from these laws by induction. If the collection refuses nothing (`Steady`),
each of them is answered as on a plain map, on which the calls of those that commit are carried out in order
(`Steady.transactions`).
-/

namespace TxnBench

/-- What a collection is to transactions that do not overlap. -/
structure Sequential {K V : Type} [Ord K] [Std.TransOrd K] (C : Collection K V) where
  /-- No transaction is open, and the entries are those of the map. -/
  Rests : C.State → Contents K V → Prop
  /-- The only open transaction began on the first of the maps and sees the second. -/
  Runs : C.Txn → C.State → Contents K V → Contents K V → Prop
  start : ∀ {s m}, Rests s m → Runs (C.start s).1 (C.start s).2 m m
  /-- A call is answered as on the map that is seen, or is refused. -/
  call : ∀ {t s m₀ m a k}, Runs t s m₀ m → a.key? = some k →
    ((C.call t s a).1 = (m.perform a).1 ∧ Runs (C.call t s a).2.1 (C.call t s a).2.2 m₀ (m.perform a).2) ∨
      ((C.call t s a).1.isSuccess = false ∧ Runs (C.call t s a).2.1 (C.call t s a).2.2 m₀ m)
  /-- A commit keeps what is seen, or is refused and discards it. -/
  commit : ∀ {t s m₀ m}, Runs t s m₀ m →
    ((C.commit t s).1 = .value () ∧ Rests (C.commit t s).2 m) ∨
      ((C.commit t s).1 ≠ .value () ∧ Rests (C.commit t s).2 m₀)
  drop : ∀ {t s m₀ m}, Runs t s m₀ m → Rests (C.drop t s) m₀
  find : ∀ {s m}, Rests s m → ∀ k, C.find s k = m[k]?

/-- A whole transaction: its calls, each on a key, and whether it is committed in the end or dropped. -/
structure Transaction (K V : Type) where
  calls : List (Action K V)
  onKeys : ∀ a ∈ calls, a.key?.isSome
  commits : Bool

section Transactions

variable {K V Name : Type}

/-- The steps of a transaction under a name. -/
def Transaction.steps (t : Name) (x : Transaction K V) : List (Name × Action K V) :=
  (t, .start) :: (x.calls.map (Prod.mk t) ++ [(t, if x.commits then .commit else .drop)])

/-- The schedule in which transactions, each under a name, run one after another. -/
def serially (txns : List (Name × Transaction K V)) : List (Name × Action K V) :=
  txns.flatMap fun x => x.2.steps x.1

variable [Ord K] [Std.TransOrd K]

/-- What calls on a plain map are answered, one after another. -/
def Contents.answers (m : Contents K V) : List (Action K V) → List (Answer V)
  | [] => []
  | a :: rest => (m.perform a).1 :: Contents.answers (m.perform a).2 rest

/-- What a transaction that has a plain map to itself leaves of it. -/
def Transaction.after (x : Transaction K V) (m : Contents K V) : Contents K V :=
  if x.commits then m.performAll x.calls else m

/-- What the steps of a transaction are answered that has a plain map to itself. -/
def Transaction.answers (x : Transaction K V) (m : Contents K V) : List (Answer V) :=
  .done :: (m.answers x.calls ++ [.done])

/-- What the steps of transactions are answered that run on a plain map one after another. -/
def Contents.serialAnswers (m : Contents K V) : List (Transaction K V) → List (Answer V)
  | [] => []
  | x :: rest => x.answers m ++ Contents.serialAnswers (x.after m) rest

/-- What transactions that run one after another leave of a plain map: the calls of those that commit are carried out. -/
def Contents.afterTransactions (m : Contents K V) (txns : List (Transaction K V)) : Contents K V :=
  m.performAll ((txns.filter Transaction.commits).flatMap Transaction.calls)

theorem Contents.performAll_append (m : Contents K V) (first rest : List (Action K V)) :
    m.performAll (first ++ rest) = (m.performAll first).performAll rest :=
  List.foldl_append

theorem Contents.afterTransactions_cons (m : Contents K V) (x : Transaction K V) (rest : List (Transaction K V)) :
    m.afterTransactions (x :: rest) = (x.after m).afterTransactions rest := by
  unfold afterTransactions Transaction.after
  cases hx : x.commits with
  | true => rw [List.filter_cons_of_pos hx, List.flatMap_cons, performAll_append, if_pos rfl]
  | false => rw [List.filter_cons_of_neg (by simp [hx]), if_neg Bool.false_ne_true]

/-- A plain map answers every call. -/
theorem Contents.isSuccess_perform (m : Contents K V) (a : Action K V) : (m.perform a).1.isSuccess = true := by
  cases a <;> rfl

theorem Contents.isSuccess_of_mem_answers {m : Contents K V} {calls : List (Action K V)} {answer : Answer V}
    (h : answer ∈ m.answers calls) : answer.isSuccess = true := by
  induction calls generalizing m with
  | nil => cases h
  | cons a rest ih =>
    rcases List.mem_cons.mp h with rfl | h
    · exact m.isSuccess_perform a
    · exact ih h

/-- On a plain map every step of every transaction goes through. -/
theorem Contents.isSuccess_of_mem_serialAnswers {m : Contents K V} {txns : List (Transaction K V)} {answer : Answer V}
    (h : answer ∈ m.serialAnswers txns) : answer.isSuccess = true := by
  induction txns generalizing m with
  | nil => cases h
  | cons x rest ih =>
    simp only [serialAnswers, Transaction.answers, List.cons_append, List.append_assoc, List.mem_cons, List.mem_append,
      List.not_mem_nil, false_or] at h
    rcases h with rfl | h | rfl | h
    · rfl
    · exact isSuccess_of_mem_answers h
    · rfl
    · exact ih h

end Transactions

/-- Two schedules one after the other, with what comes of both. -/
theorem Session.performAll_append_eq {K V Name : Type} {C : Collection K V} [DecidableEq Name] (σ : Session C Name)
    (first rest : List (Name × Action K V)) :
    σ.performAll (first ++ rest) =
      ((σ.performAll first).1 ++ ((σ.performAll first).2.performAll rest).1, ((σ.performAll first).2.performAll rest).2) := by
  induction first generalizing σ with
  | nil => rfl
  | cons step first ih =>
    have hrest := ih (σ.perform step.1 step.2).2
    simp only [List.cons_append, performAll, hrest]

namespace Sequential

variable {K V : Type} [Ord K] [Std.TransOrd K] {C : Collection K V} (Q : Sequential C)
  {t t' : C.Txn} {s s' : C.State} {m₀ m : Contents K V}

/-- No call and no commit breaks off. -/
structure Unbroken : Prop where
  call : ∀ {t s m₀ m a}, Q.Runs t s m₀ m → a.key?.isSome → ∀ f, (C.call t s a).1 ≠ .faulted f
  commit : ∀ {t s m₀ m}, Q.Runs t s m₀ m → ∀ f, (C.commit t s).1 ≠ .fault f

/-- No call and no commit is refused. -/
structure Steady : Prop where
  call : ∀ {t s m₀ m a}, Q.Runs t s m₀ m → a.key?.isSome → (C.call t s a).1.isSuccess = true
  commit : ∀ {t s m₀ m}, Q.Runs t s m₀ m → (C.commit t s).1 = .value ()

/-- The size stated is the number of entries. -/
def Truthful : Prop :=
  ∀ {s m}, Q.Rests s m → C.size s = UInt64.ofNat m.size

variable {Q}

/-- A call that goes through is answered as on the map that is seen. -/
theorem call_of_success (h : Q.Runs t s m₀ m) {a : Action K V} {k : K} (hk : a.key? = some k) {answer : Answer V}
    (hc : C.call t s a = (answer, t', s')) (hok : answer.isSuccess = true) :
    answer = (m.perform a).1 ∧ Q.Runs t' s' m₀ (m.perform a).2 := by
  have hcall := Q.call h hk
  rw [hc] at hcall
  rcases hcall with hmade | ⟨hno, -⟩
  · exact hmade
  · exact absurd (hok.symm.trans hno) nofun

/-- A call that is refused changes nothing of what is seen. -/
theorem call_of_refusal (h : Q.Runs t s m₀ m) {a : Action K V} {k : K} (hk : a.key? = some k) {answer : Answer V}
    (hc : C.call t s a = (answer, t', s')) (hno : answer.isSuccess = false) : Q.Runs t' s' m₀ m := by
  have hcall := Q.call h hk
  rw [hc] at hcall
  rcases hcall with ⟨hok, -⟩ | ⟨-, hsame⟩
  · change answer = _ at hok
    rw [hok, m.isSuccess_perform] at hno
    cases hno
  · exact hsame

/-- A commit that goes through keeps what is seen. -/
theorem commit_of_value (h : Q.Runs t s m₀ m) (hc : C.commit t s = (.value (), s')) : Q.Rests s' m := by
  have hcommit := Q.commit h
  rw [hc] at hcommit
  rcases hcommit with ⟨-, hkept⟩ | ⟨hno, -⟩
  · exact hkept
  · exact absurd rfl hno

/-- A commit that is refused leaves what there was when its transaction began. -/
theorem commit_of_refusal (h : Q.Runs t s m₀ m) {reply : Reply Unit} (hc : C.commit t s = (reply, s'))
    (hno : reply ≠ .value ()) : Q.Rests s' m₀ := by
  have hcommit := Q.commit h
  rw [hc] at hcommit
  rcases hcommit with ⟨hok, -⟩ | ⟨-, hleft⟩
  · exact absurd hok hno
  · exact hleft

/-- What refuses nothing does not break off. -/
theorem Steady.unbroken (hQ : Q.Steady) : Q.Unbroken where
  call h hk f e := by
    have hok := hQ.call h hk
    rw [e] at hok
    cases hok
  commit h f e := by
    rw [hQ.commit h] at e
    cases e

/-! ## Transactions one after another -/

variable {Name : Type} [DecidableEq Name]

/-- The calls of the only open transaction are answered as on the map it sees. -/
theorem Steady.calls (hQ : Q.Steady) (t : Name) {x : C.Txn} {s : C.State} (h : Q.Runs x s m₀ m) {calls : List (Action K V)}
    (hk : ∀ a ∈ calls, a.key?.isSome) :
    ∃ x' s', (Session.mk s [(t, x)] : Session C Name).performAll (calls.map (Prod.mk t)) =
      (m.answers calls, ⟨s', [(t, x')]⟩) ∧ Q.Runs x' s' m₀ (m.performAll calls) := by
  induction calls generalizing x s m with
  | nil => exact ⟨x, s, rfl, h⟩
  | cons a rest ih =>
    have ha := hk a List.mem_cons_self
    obtain ⟨k, hkey⟩ := Option.isSome_iff_exists.mp ha
    have hok := hQ.call h ha
    rcases hcall : C.call x s a with ⟨answer, x₁, s₁⟩
    rw [hcall] at hok
    obtain ⟨rfl, hnext⟩ := call_of_success h hkey hcall hok
    obtain ⟨x', s', hperform, hruns⟩ := ih hnext fun b hb => hk b (List.mem_cons_of_mem a hb)
    have hx : (Session.mk s [(t, x)] : Session C Name).txn? t = some x := by simp [Session.txn?]
    have hothers : (Session.mk s [(t, x)] : Session C Name).others t = [] := by simp [Session.others]
    refine ⟨x', s', ?_, hruns⟩
    simp only [List.map_cons, Session.performAll, Session.perform_call _ hx ha, hcall, hothers, hperform, Contents.answers]

/-- A transaction that overlaps no other is answered as on a plain map, and leaves the same entries. -/
theorem Steady.transaction (hQ : Q.Steady) (t : Name) (x : Transaction K V) (h : Q.Rests s m) :
    ∃ s', (Session.mk s [] : Session C Name).performAll (x.steps t) = (x.answers m, ⟨s', []⟩) ∧
      Q.Rests s' (x.after m) := by
  obtain ⟨y, s₁, hcalls, hruns⟩ := hQ.calls t (Q.start h) x.onKeys
  have hy : (Session.mk s₁ [(t, y)] : Session C Name).txn? t = some y := by simp [Session.txn?]
  have hothers : (Session.mk s₁ [(t, y)] : Session C Name).others t = [] := by simp [Session.others]
  have hstart : (Session.mk s [] : Session C Name).perform t .start = (.done, ⟨(C.start s).2, [(t, (C.start s).1)]⟩) :=
    rfl
  simp only [Transaction.steps, Session.performAll, hstart, Session.performAll_append_eq, hcalls]
  unfold Transaction.after
  cases hx : x.commits with
  | true =>
    refine ⟨(C.commit y s₁).2, ?_, ?_⟩
    · simp only [if_true, Session.perform_commit _ hy, hQ.commit hruns, hothers]
      rfl
    · exact commit_of_value hruns (Prod.ext (hQ.commit hruns) rfl)
  | false =>
    refine ⟨C.drop y s₁, ?_, Q.drop hruns⟩
    simp only [Bool.false_eq_true, if_false, Session.perform_drop _ hy, hothers]
    rfl

/-- Transactions that run one after another are answered as on a plain map, and leave the same entries. -/
theorem Steady.transactions (hQ : Q.Steady) (txns : List (Name × Transaction K V)) (h : Q.Rests s m) :
    ∃ s', (Session.mk s [] : Session C Name).performAll (serially txns) =
        (m.serialAnswers (txns.map Prod.snd), ⟨s', []⟩) ∧
      Q.Rests s' (m.afterTransactions (txns.map Prod.snd)) := by
  induction txns generalizing s m with
  | nil => exact ⟨s, rfl, h⟩
  | cons x rest ih =>
    obtain ⟨s₁, hfirst, hrests⟩ := hQ.transaction x.1 x.2 h
    obtain ⟨s', hrest, hrests'⟩ := ih hrests
    refine ⟨s', ?_, ?_⟩
    · change (Session.mk s [] : Session C Name).performAll (x.2.steps x.1 ++ serially rest) = _
      rw [Session.performAll_append_eq, hfirst, hrest]
      rfl
    · rw [List.map_cons, Contents.afterTransactions_cons]
      exact hrests'

end Sequential

end TxnBench
