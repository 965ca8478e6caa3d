import TxnBench.Bench.Populate
import TxnBench.Proofs.Workers.Batches
import TxnBench.Proofs.Workload.Generate

/-!
# What populating comes to

Whatever the collection answers, entries are drawn and put one after another in one transaction, until one of them does not go
through or there are no more (`insertAll_cases`). So a populate has an `Outcome`: the transaction is committed, or its commit
does not go through, or it is dropped at the entry that did not. The source is left as the entries drawn by then leave it
(`exists_outcome`), and no entry is drawn after one that was turned down (`of_failed`).
-/

namespace TxnBench

/-- A task of a kind that inserts puts its value at its key. -/
theorem Task.action_of_insert {task : Task} (h : task.kind = .insert) : task.action = .put task.key task.value := by
  unfold action
  rw [h]

/-- One more task is drawn from what those before have left of the source. -/
theorem Task.drawAll_insert_append {G : Type} [Source G] {range : KeyRange} {tasks : List Task} {task : Task} {g g₁ g' : G}
    (h : drawAll range (List.replicate tasks.length .insert) g = some (tasks, g₁))
    (hlast : draw .insert range g₁ = some (task, g')) :
    drawAll range (List.replicate (tasks.length + 1) .insert) g = some (tasks ++ [task], g') := by
  rw [List.replicate_succ', drawAll_append_eq_some_iff]
  exact ⟨tasks, g₁, [task], h, drawAll_cons_eq_some_iff.mpr ⟨task, g', [], hlast, rfl, rfl⟩, rfl⟩

/-- All tasks drawn for insertions insert. -/
theorem Task.kind_of_drawAll_insert {G : Type} [Source G] {range : KeyRange} {n : Nat} {tasks : List Task} {g g' : G}
    (h : drawAll range (List.replicate n .insert) g = some (tasks, g')) : ∀ task ∈ tasks, task.kind = .insert := by
  intro task htask
  have hkind := List.mem_map_of_mem (f := Task.kind) htask
  rw [map_kind_of_drawAll h] at hkind
  exact List.eq_of_mem_replicate hkind

/-- What is drawn first for fewer insertions comes first for more. -/
theorem Task.prefix_of_drawAll_insert {G : Type} [Source G] {range : KeyRange} {k n : Nat} {tried drawn : List Task}
    {g g₁ g' : G} (h : drawAll range (List.replicate n .insert) g = some (drawn, g')) (hle : k ≤ n)
    (htried : drawAll range (List.replicate k .insert) g = some (tried, g₁)) : tried <+: drawn := by
  have hsplit : List.replicate n TaskKind.insert = List.replicate k .insert ++ List.replicate (n - k) .insert := by
    rw [List.replicate_append_replicate, Nat.add_sub_cancel' hle]
  rw [hsplit] at h
  obtain ⟨first, g₂, rest, hfirst, -, rfl⟩ := drawAll_append_eq_some_iff.mp h
  cases htried.symm.trans hfirst
  exact List.prefix_append tried rest

/-- How a reply that has no value ends a populate. -/
def Reply.halt? {α : Type} : Reply α → Option Halt
  | .value _ => none
  | .abort why => some (.failed (.populate why))
  | .fault f => some (.fault f)

/-- A reply that turns the transaction down is what makes a populate fail. -/
theorem Reply.halt?_eq_failed_iff {α : Type} {reply : Reply α} {why : Abort} :
    reply.halt? = some (.failed (.populate why)) ↔ reply = .abort why := by
  cases reply <;> simp [halt?]

namespace Populate

variable (C : Collection UInt64 UInt64)

/-- What comes of populating with `n` entries in the state `s`: the tasks drawn, what is reported, and the state left. -/
inductive Outcome (n : Nat) (s : C.State) : List Task → Except Halt UInt64 → C.State → Prop where
  /-- All entries are put and kept. -/
  | keep {made t s₁ s' count} (opened : Worker.Opened C 0 s made t s₁) (all : made.length = n)
    (counted : count.toNat = insertions (Attempt.callsOf made)) (committed : C.commit t s₁ = (.value (), s')) :
    Outcome n s (made.map Prod.fst) (.ok count) s'
  /-- All entries are put, and the commit does not go through. -/
  | discard {made t s₁ s' reply e} (opened : Worker.Opened C 0 s made t s₁) (all : made.length = n)
    (committed : C.commit t s₁ = (reply, s')) (halts : reply.halt? = some e) :
    Outcome n s (made.map Prod.fst) (.error e) s'
  /-- A put does not go through. -/
  | refuse {made task t t' s₁ s' reply e} (opened : Worker.Opened C 0 s made t s₁) (within : made.length < n)
    (called : C.put t s₁ task.key task.value = (reply, t', s')) (halts : reply.halt? = some e) :
    Outcome n s (made.map Prod.fst ++ [task]) (.error e) (C.drop t' s')

variable {C} {G : Type} [Source G] {range : KeyRange}

/-- A populate that fails was turned down at the last entry it drew, or at its commit once it had drawn all. -/
theorem Outcome.of_failed {n : Nat} {s s' : C.State} {tried : List Task} {why : Abort}
    (h : Outcome C n s tried (.error (.failed (.populate why))) s') :
    (∃ made task t s₁ t' s₂, Worker.Opened C 0 s made t s₁ ∧ C.put t s₁ task.key task.value = (.abort why, t', s₂) ∧
        made.length < n ∧ tried = made.map Prod.fst ++ [task]) ∨
      ∃ made t s₁ s₂, Worker.Opened C 0 s made t s₁ ∧ C.commit t s₁ = (.abort why, s₂) ∧ made.length = n ∧
        tried = made.map Prod.fst := by
  cases h with
  | @discard made t s₁ s' reply e opened all committed halts =>
    rw [Reply.halt?_eq_failed_iff.mp halts] at committed
    exact Or.inr ⟨made, t, s₁, s', opened, committed, all, rfl⟩
  | @refuse made task t t' s₁ s₂ reply e opened within called halts =>
    rw [Reply.halt?_eq_failed_iff.mp halts] at called
    exact Or.inl ⟨made, task, t, s₁, t', s₂, opened, called, within, rfl⟩

/-- A put that goes through is a task carried out, and it is counted if its key is new. -/
theorem exists_carry {s₀ s s' : C.State} {t t' : C.Txn} {made : List (Task × Answer UInt64)} {task : Task}
    {previous : Option UInt64} {count : UInt64} (h : Worker.Opened C 0 s₀ made t s) (hkind : task.kind = .insert)
    (hput : C.put t s task.key task.value = (.value previous, t', s'))
    (hcount : count.toNat = insertions (Attempt.callsOf made)) (hfit : count.toNat + 1 < 2 ^ 64) :
    Worker.Opened C 0 s₀ (made ++ [(task, .value previous)]) t' s' ∧
      ∃ count', (if previous.isNone then Word.plus count 1 else .ok count) = .ok count' ∧
        count'.toNat = insertions (Attempt.callsOf (made ++ [(task, .value previous)])) ∧
        count'.toNat ≤ count.toNat + 1 := by
  have haction := Task.action_of_insert hkind
  have hcall : C.call t s task.action = (.value previous, t', s') := by
    rw [haction]
    simp only [Collection.call, hput]
    rfl
  refine ⟨h.carry (Or.inl rfl) hcall rfl, ?_⟩
  have hcalls : insertions (Attempt.callsOf (made ++ [(task, .value previous)])) =
      insertions (Attempt.callsOf made) + if previous.isNone then 1 else 0 := by
    have hone : Attempt.callsOf [(task, .value previous)] = [⟨.put task.key task.value, .value previous⟩] := by
      rw [← haction]
      rfl
    rw [Attempt.callsOf_append, hone, insertions_append_singleton]
    cases previous <;> rfl
  rw [hcalls]
  cases previous with
  | none =>
    obtain ⟨count', hplus⟩ := Word.exists_plus (a := count) (b := 1) hfit
    have hexact : count.toNat + 1 = count'.toNat := Word.plus_eq_ok_iff.mp hplus
    exact ⟨count', hplus, hexact.symm.trans (congrArg (· + 1) hcount), Nat.le_of_eq hexact.symm⟩
  | some value => exact ⟨count, rfl, hcount, Nat.le_succ _⟩

/-- Entries are put one after another in an open transaction until there are no more, or until one of them does not go through
and the transaction is dropped. -/
theorem insertAll_cases {n : Nat} {s₀ s : C.State} {t : C.Txn} {made : List (Task × Answer UInt64)} {count : UInt64}
    {g₀ g g' : G} {entries : List Task} (h : Worker.Opened C 0 s₀ made t s)
    (hmade : Task.drawAll range (List.replicate made.length .insert) g₀ = some (made.map Prod.fst, g))
    (hcount : count.toNat = insertions (Attempt.callsOf made)) (hfit : count.toNat + n < 2 ^ 64)
    (hdraw : Task.drawAll range (List.replicate n .insert) g = some (entries, g')) :
    (∃ made' count' t' s', insertAll C range n count t s g = (.ok (count', t'), s', g') ∧
        Worker.Opened C 0 s₀ made' t' s' ∧ made'.length = made.length + n ∧
        Task.drawAll range (List.replicate made'.length .insert) g₀ = some (made'.map Prod.fst, g') ∧
        count'.toNat = insertions (Attempt.callsOf made')) ∨
      ∃ made' task reply e t₁ s₁ t' s' g₁, insertAll C range n count t s g = (.error e, C.drop t' s', g₁) ∧
        Worker.Opened C 0 s₀ made' t₁ s₁ ∧ made'.length < made.length + n ∧
        C.put t₁ s₁ task.key task.value = (reply, t', s') ∧ reply.halt? = some e ∧
        Task.drawAll range (List.replicate (made'.length + 1) .insert) g₀ = some (made'.map Prod.fst ++ [task], g₁) := by
  induction n generalizing made count t s g entries with
  | zero =>
    cases hdraw
    exact Or.inl ⟨made, count, t, s, rfl, h, rfl, hmade, hcount⟩
  | succ n ih =>
    obtain ⟨task, g₁, rest, hfirst, hrest, rfl⟩ := Task.drawAll_cons_eq_some_iff.mp hdraw
    have hlength : (made.map Prod.fst).length = made.length := List.length_map ..
    have hmade' : Task.drawAll range (List.replicate (made.length + 1) .insert) g₀ = some (made.map Prod.fst ++ [task], g₁) := by
      rw [← hlength] at hmade ⊢
      exact Task.drawAll_insert_append hmade hfirst
    rcases hput : C.put t s task.key task.value with ⟨reply, t', s'⟩
    have hrefused : ∀ e, reply.halt? = some e → insertAll C range (n + 1) count t s g = (.error e, C.drop t' s', g₁) := by
      intro e he
      cases reply <;> cases he <;> simp only [insertAll, hfirst, hput]
    cases reply with
    | value previous =>
      obtain ⟨hcarry, count₁, hplus, hcount₁, hle⟩ :=
        exists_carry h (Task.kind_of_draw hfirst) hput hcount (by omega)
      have hstep : insertAll C range (n + 1) count t s g = insertAll C range n count₁ t' s' g₁ := by
        simp only [insertAll, hfirst, hput, hplus]
      have hmade₁ : Task.drawAll range (List.replicate (made ++ [(task, Answer.value previous)]).length .insert) g₀ =
          some ((made ++ [(task, Answer.value previous)]).map Prod.fst, g₁) := by
        simpa using hmade'
      have hsucc : (made ++ [(task, Answer.value previous)]).length + n = made.length + (n + 1) := by
        simp only [List.length_append, List.length_singleton]
        omega
      rw [hstep, ← hsucc]
      exact ih hcarry hmade₁ hcount₁ (by omega) hrest
    | abort why | fault f =>
      exact Or.inr ⟨made, task, _, _, t, s, t', s', g₁, hrefused _ rfl, h, by omega, hput, rfl, hmade'⟩

/-- A populate has an outcome, and leaves the source as the tasks drawn leave it. -/
theorem exists_outcome (C : Collection UInt64 UInt64) {n : UInt64} (s : C.State) {g g' : G} {drawn : List Task}
    (hdraw : Task.drawAll range (List.replicate n.toNat .insert) g = some (drawn, g')) :
    ∃ tried, Outcome C n.toNat s tried (populate C n range s g).1 (populate C n range s g).2.1 ∧
      Task.drawAll range (List.replicate tried.length .insert) g = some (tried, (populate C n range s g).2.2) := by
  have hn := n.toNat_lt
  have hzero : (0 : UInt64).toNat = 0 := rfl
  have hfit : (0 : UInt64).toNat + n.toNat < 2 ^ 64 := by omega
  have hstart : Worker.Opened C 0 s [] (C.start s).1 (C.start s).2 := .start
  have hnone : Task.drawAll range (List.replicate 0 .insert) g = some ([], g) := rfl
  rcases insertAll_cases hstart hnone rfl hfit hdraw with
    ⟨made, count, t, s₁, hall, hopened, hlength, hmade, hcount⟩ |
    ⟨made, task, reply, e, t₁, s₁, t', s', g₁, hall, hopened, hlength, hput, halts, hmade⟩
  · rw [List.length_nil, Nat.zero_add] at hlength
    have hlength' : (made.map Prod.fst).length = made.length := List.length_map ..
    rw [← hlength'] at hmade
    refine ⟨made.map Prod.fst, ?_⟩
    rcases hcommit : C.commit t s₁ with ⟨reply, s'⟩
    cases reply with
    | value =>
      simp only [populate, hall, hcommit]
      exact ⟨.keep hopened hlength hcount hcommit, hmade⟩
    | abort why | fault f =>
      simp only [populate, hall, hcommit]
      exact ⟨.discard hopened hlength hcommit rfl, hmade⟩
  · rw [List.length_nil, Nat.zero_add] at hlength
    refine ⟨made.map Prod.fst ++ [task], ?_⟩
    simp only [populate, hall]
    refine ⟨.refuse hopened hlength hput halts, ?_⟩
    simpa using hmade

/-- If a populate fails, either a put was turned down and nothing was drawn after its task, or the commit was turned down once
all entries were drawn. -/
theorem of_failed {n : UInt64} {s : C.State} {g g' : G} {drawn : List Task} {why : Abort}
    (hdraw : Task.drawAll range (List.replicate n.toNat .insert) g = some (drawn, g'))
    (h : (populate C n range s g).1 = .error (.failed (.populate why))) :
    (∃ made task t s₁ t' s', Worker.Opened C 0 s made t s₁ ∧ C.put t s₁ task.key task.value = (.abort why, t', s') ∧
        made.map Prod.fst ++ [task] <+: drawn ∧
        Task.drawAll range (List.replicate (made.length + 1) .insert) g =
          some (made.map Prod.fst ++ [task], (populate C n range s g).2.2)) ∨
      ∃ made t s₁ s', Worker.Opened C 0 s made t s₁ ∧ C.commit t s₁ = (.abort why, s') ∧ made.map Prod.fst = drawn ∧
        (populate C n range s g).2.2 = g' := by
  obtain ⟨tried, houtcome, htried⟩ := exists_outcome C s hdraw
  rw [h] at houtcome
  rcases houtcome.of_failed with ⟨made, task, t, s₁, t', s', hopened, hput, hwithin, rfl⟩ |
    ⟨made, t, s₁, s', hopened, hcommit, hall, rfl⟩
  · left
    have hone : (made.map Prod.fst ++ [task]).length = made.length + 1 := by simp
    rw [hone] at htried
    exact ⟨made, task, t, s₁, t', s', hopened, hput, Task.prefix_of_drawAll_insert hdraw hwithin htried, htried⟩
  · right
    rw [List.length_map, hall] at htried
    obtain ⟨hmade, hsource⟩ := Prod.mk.inj (Option.some.inj (htried.symm.trans hdraw))
    exact ⟨made, t, s₁, s', hopened, hcommit, hmade, hsource⟩

end Populate

end TxnBench
