import Mathlib.Data.Finset.Card
import Mathlib.Data.Finset.Dedup
import TxnBench.Proofs.Striped.Sessions

/-!
# What the stripes represent

After any schedule, whatever transactions are still open, nobody holds a stripe, no time lies in the future of the clock, and every
key lies in the stripe that its hash says (`stripes_represent_entries`). So no key is at two places, and the number of entries,
which is added up stripe by stripe, is the number of keys that a transaction finds which begins there and then.

This is said of the collection for any number of stripes. Such a collection is made just if there is room for its stripes
(`sized_eq_ok_iff`, `sized_eq_error_iff`).
-/

namespace TxnBench.Striped

/-! ## Stripes told by a hash -/

section Home

variable {K : Type} [ByteKey K]

/-- The stripe of a key when `count` stripes are asked for; there is at least one. -/
def home (count : Nat) : K → Fin (max count 1) :=
  stripeOf (max count 1) (count_pos count)

/-- The stripe of a key is the remainder of its hash. -/
theorem val_home (count : Nat) (k : K) :
    (home count k : Nat) = (KeyHash.ofBytes (ByteKey.bytes k)).toNat % max count 1 :=
  rfl

end Home

section Room

variable {K V : Type} [Ord K] [Std.TransOrd K] [ByteKey K] {count : UInt64}

/-- If there is room for the stripes that are asked for, the collection is made, and what it is is told by their number. -/
theorem sized_eq_ok_iff {C : Collection K V} :
    sized K V count = .ok C ↔ count.toNat * stripeBytes ≤ Capacity.limit ∧ hashed K V count.toNat = C := by
  unfold sized
  cases hroom : Capacity.reserve count.toNat stripeBytes with
  | ok => simp [Capacity.reserve_eq_ok_iff.mp hroom]
  | error f => simp [(Capacity.reserve_eq_error_iff.mp hroom).1]

/-- If there is no room for the stripes that are asked for, that is a fault. -/
theorem sized_eq_error_iff {f : Fault} :
    sized K V count = .error f ↔ Capacity.limit < count.toNat * stripeBytes ∧ f = .capacity := by
  rw [← Capacity.reserve_eq_error_iff]
  unfold sized
  cases Capacity.reserve count.toNat stripeBytes <;> simp [eq_comm]

end Room

variable {K V Name : Type} [Ord K] [Std.TransOrd K] [Std.LawfulEqOrd K] [DecidableEq K] [DecidableEq Name] {n : Nat}
  {place : K → Fin n} {σ : Session (collection (V := V) place) Name}

/-! ## Transactions that begin -/

/-- No open transaction began in the future of the clock. -/
theorem began_le_clock (place : K → Fin n) {schedule : List (Name × Action K V)} {t : Name} {x : Txn K V n}
    (hx : ((Session.fresh (collection (V := V) place) Name).performAll schedule).2.txn? t = some x) :
    x.began ≤ clock (n := n) ((Session.fresh (collection (V := V) place) Name).performAll schedule).2.state := by
  obtain ⟨before, during, -, -, -, hsplit, hlive⟩ := exists_live hx
  rw [hsplit, hlive.tracks.began]
  exact hlive.later.clock_le

/-- A transaction that has just begun reads what is there, and is not turned down. -/
theorem perform_get_of_start (hs : Sound place σ.state) (t : Name) (k : K) :
    ((σ.perform t .start).2.perform t (.get k)).1 = .value (find (n := n) place σ.state k) := by
  have hlive : Live place σ.state [] (Striped.start (n := n) σ.state) (σ.perform t .start).2.state := Live.start hs
  rcases live_perform_call (sound_perform hs t .start).1 (txn?_perform_start t) hlive (a := .get k) rfl with
    ⟨-, hversion, -⟩ | ⟨-, hanswer, -⟩
  · exact absurd (hs.version_le (place k)) (Nat.not_le.mpr hversion)
  · rw [hanswer, ← hs.getElem?_contents]
    exact congrArg (fun m : Contents K V => Answer.value m[k]?) (Contents.overlay_empty _)

/-! ## The keys that are there -/

omit [DecidableEq Name] in
/-- A sound state has as many keys as it says. -/
theorem Sound.exists_keys {s : Striped K V n} (h : Sound place s) :
    ∃ keys : Finset K, (∀ k, k ∈ keys ↔ ∃ v, s.find place k = some v) ∧ s.size = keys.card := by
  refine ⟨s.contents.keys.toFinset, ?_, ?_⟩
  · intro k
    rw [List.mem_toFinset, Std.ExtTreeMap.mem_keys, Std.ExtTreeMap.mem_iff_isSome_getElem?, h.getElem?_contents,
      Option.isSome_iff_exists]
  · rw [List.toFinset_card_of_nodup Std.ExtTreeMap.nodup_keys, Std.ExtTreeMap.length_keys, h.size_contents]

/-- The stripes represent the entries. However many stripes are asked for, and whatever is done with the collection: between two
actions nobody holds a stripe, no stripe and no open transaction has a time from the future of the clock, and every key is in the
stripe that the remainder of its hash says, and in no other. A transaction that begins then finds a value or none at every key,
without being turned down, and the collection states the number of keys at which it finds a value. -/
theorem stripes_represent_entries [ByteKey K] (count : Nat) (schedule : List (Name × Action K V)) :
    let σ := ((Session.fresh (hashed K V count) Name).performAll schedule).2
    let s : Striped K V (max count 1) := σ.state
    (∀ i, (s.word i).locked = false) ∧ (∀ i, (s.word i).version ≤ s.clock) ∧
      (∀ t, ∀ x : Txn K V (max count 1), σ.txn? t = some x → x.began ≤ s.clock) ∧
      (∀ i k, k ∈ s.entries i → (i : Nat) = (KeyHash.ofBytes (ByteKey.bytes k)).toNat % max count 1) ∧
      ∀ t, let answer := fun k => ((σ.perform t .start).2.perform t (.get k)).1
        (∀ k, ∃ v, answer k = .value v) ∧
          ∃ keys : Finset K, (∀ k, k ∈ keys ↔ ∃ v, answer k = .value (some v)) ∧
            s.size = keys.card ∧ (hashed K V count).size s = UInt64.ofNat keys.card := by
  intro σ s
  have hs : Sound (home count) s :=
    sound_performAll (σ := Session.fresh (collection (V := V) (home count)) Name) sound_fresh schedule
  refine ⟨hs.unlocked, hs.version_le, fun t x hx => began_le_clock (home count) hx, fun i k hk => ?_, fun t => ?_⟩
  · rw [← val_home count k, hs.home hk]
  · intro answer
    have hanswer : ∀ k, answer k = .value (s.find (home count) k) := fun k =>
      perform_get_of_start (σ := (σ : Session (collection (home count)) Name)) hs t k
    obtain ⟨keys, hkeys, hcard⟩ := hs.exists_keys
    refine ⟨fun k => ⟨_, hanswer k⟩, keys, fun k => ?_, hcard, congrArg UInt64.ofNat hcard⟩
    simp only [hkeys, hanswer, Answer.value.injEq]

/-- No stripe is asked for, so there is one. A removal goes through, and turns down a transaction that has read in the same stripe;
a third is still open. Two keys are left. -/
theorem one_stripe_represents_two_keys :
    let schedule : List (Nat × Action UInt64 UInt64) :=
      [(0, .start), (0, .put 1 10), (0, .put 2 20), (0, .put 3 30), (0, .commit), (1, .start), (1, .remove 2), (2, .start),
        (2, .put 4 40), (1, .commit), (2, .commit), (3, .start), (3, .put 9 90)]
    let σ := ((Session.fresh (hashed UInt64 UInt64 0) Nat).performAll schedule).2
    (hashed UInt64 UInt64 0).size σ.state = 2 ∧
      ∃ keys : Finset UInt64, keys.card = 2 ∧
        ∀ k, k ∈ keys ↔ ∃ v, ((σ.perform 4 .start).2.perform 4 (.get k)).1 = .value (some v) := by
  intro schedule σ
  have hsize : size (n := 1) σ.state = 2 := by decide +kernel
  obtain ⟨-, keys, hkeys, hcard, -⟩ := (stripes_represent_entries 0 schedule).2.2.2.2 4
  exact ⟨congrArg UInt64.ofNat hsize, keys, hcard.symm.trans hsize, hkeys⟩

end TxnBench.Striped
