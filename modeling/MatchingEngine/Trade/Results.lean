import Mathlib
import MatchingEngine.Lib.LittleEndian
import MatchingEngine.TradeEngine

/-!
# The results of a session

`onComplete` completes every contract, and then reports the TWAP orders and the profits of all
of them.  The rows are sorted with the bytes of the instruments reversed, and reversed back
after it, so what is reported is a permutation of the rows of the engines, in the order of the
instruments as strings of eight bytes.

## Main definitions

* `reverseInstrumentId_reverseInstrumentId` — reversing twice changes nothing.
* `instrumentString` — the bytes of an instrument; `reverseInstrumentId_lt_iff` compares them.
* `twapRows`, `pnlRow` — the rows of one engine under its own instrument.
* `TradeEngine.results_canonical` — all rows are reported, in their canonical order.
* `TradeEngine.completeContracts_spec` — completing the contracts changes nothing else.
-/

namespace MatchingEngine

open LittleEndian

/-! ## Reversed instruments -/

/-- The passes move the bytes of `instrumentId` over, the lowest first. -/
theorem toNat_reverseStep_iterate (l : List UInt8) :
    ∀ (m : List UInt8) (p : UInt64 × UInt64), l.length + m.length ≤ 8 → p.1.toNat = value m →
      p.2.toNat = value l → (reverseStep^[l.length] p).1.toNat = value (l.reverse ++ m) := by
  induction l with
  | nil => intro m p _ hresult _; exact hresult
  | cons b l ih =>
    intro m p hlen hresult hid
    rw [List.length_cons] at hlen
    rw [value_cons] at hid
    have hb := b.toNat_lt
    have hroom : 256 * value m < 2 ^ 64 := by
      have hm := value_lt m
      have hpow : 256 ^ m.length ≤ 256 ^ 7 := Nat.pow_le_pow_right (by norm_num) (by omega)
      omega
    have hlow : (p.2 &&& 0xff).toNat = b.toNat := by
      have hmask : (0xff : UInt64).toNat = 2 ^ 8 - 1 := rfl
      rw [UInt64.toNat_and, hmask, Nat.and_two_pow_sub_one_eq_mod, hid]
      omega
    have hshift : (p.1 <<< 8).toNat = value m <<< 8 := by
      have height : (8 : UInt64).toNat % 64 = 8 := rfl
      rw [UInt64.toNat_shiftLeft, height, hresult, Nat.shiftLeft_eq, Nat.mod_eq_of_lt]
      omega
    have hnext : (reverseStep p).1.toNat = value (b :: m) := by
      rw [reverseStep, UInt64.toNat_or, hshift, hlow, ← Nat.shiftLeft_add_eq_or_of_lt (by omega),
        Nat.shiftLeft_eq, value_cons]
      omega
    have hrest : (reverseStep p).2.toNat = value l := by
      have height : (8 : UInt64).toNat % 64 = 8 := rfl
      rw [reverseStep, UInt64.toNat_shiftRight, height, Nat.shiftRight_eq_div_pow, hid]
      omega
    rw [List.length_cons, Function.iterate_succ_apply, List.reverse_cons, List.append_assoc]
    exact ih (b :: m) _ (by rw [List.length_cons]; omega) hnext hrest

/-- An instrument is the number of its eight bytes. -/
theorem value_bytes_toNat (instrumentId : UInt64) :
    value (bytes 8 instrumentId.toNat) = instrumentId.toNat := by
  rw [value_bytes]
  exact Nat.mod_eq_of_lt instrumentId.toNat_lt

/-- The reversed instrument is the number of the bytes in the other order. -/
theorem toNat_reverseInstrumentId (instrumentId : UInt64) :
    (reverseInstrumentId instrumentId).toNat = value (bytes 8 instrumentId.toNat).reverse := by
  have h := toNat_reverseStep_iterate (bytes 8 instrumentId.toNat) [] (0, instrumentId)
    (by simp) rfl (value_bytes_toNat instrumentId).symm
  rwa [length_bytes, List.append_nil] at h

/-- **Reversing twice changes nothing.** -/
@[simp] theorem reverseInstrumentId_reverseInstrumentId (instrumentId : UInt64) :
    reverseInstrumentId (reverseInstrumentId instrumentId) = instrumentId := by
  have hbytes := bytes_value (bytes 8 instrumentId.toNat).reverse
  rw [List.length_reverse, length_bytes] at hbytes
  rw [← UInt64.toNat_inj, toNat_reverseInstrumentId, toNat_reverseInstrumentId, hbytes,
    List.reverse_reverse, value_bytes_toNat]

/-- The eight bytes of an instrument in memory, read as a string. -/
def instrumentString (instrumentId : UInt64) : List UInt8 := bytes 8 instrumentId.toNat

/-- **Reversed instruments compare as strings.** -/
theorem reverseInstrumentId_lt_iff (a b : UInt64) :
    reverseInstrumentId a < reverseInstrumentId b ↔ instrumentString a < instrumentString b := by
  rw [UInt64.lt_iff_toNat_lt, toNat_reverseInstrumentId, toNat_reverseInstrumentId]
  exact value_reverse_lt_iff (by simp)

/-! ## The rows -/

/-- The rows of the TWAP orders of one engine. -/
def twapRows (timestampOffset : ℤ) (e : ContractEngine OrderHeap) : List TwapOrder :=
  e.twapOrders.map fun o =>
    { instrumentId := e.instrument
      timestamp := o.timestamp + timestampOffset
      direction := if o.directionAndType >>> directionOffset = Direction.Sale.code then -1 else 1
      volume := o.volume
      price := o.price }

/-- The row of the position and the profit of one engine. -/
def pnlRow (e : ContractEngine OrderHeap) : PnlAndPos := ⟨e.instrument, e.getPosition, e.getPNL⟩

section sort
variable {α β : Type} [LinearOrder β]

theorem sort_perm (lt : α → α → Bool) (l : List α) : (sort lt l).Perm l :=
  List.perm_insertionSort _ l

/-- An `operator<` that compares keys sorts by these. -/
theorem pairwise_sort {lt : α → α → Bool} {key : α → β}
    (hkey : ∀ a b, lt a b = true ↔ key a < key b) (l : List α) :
    (sort lt l).Pairwise fun a b => key a ≤ key b := by
  have hle : ∀ a b, lt b a = false ↔ key a ≤ key b := fun a b => by
    rw [← Bool.not_eq_true, hkey, not_lt]
  have : Std.Total fun a b => lt b a = false := ⟨fun a b => by
    rw [hle, hle]
    exact le_total _ _⟩
  have : IsTrans α fun a b => lt b a = false := ⟨fun a b c hab hbc => by
    rw [hle] at hab hbc ⊢
    exact hab.trans hbc⟩
  exact (List.pairwise_insertionSort _ l).imp fun h => (hle _ _).mp h

end sort

theorem TwapOrder.lt_iff (a b : TwapOrder) : TwapOrder.lt a b = true ↔
    toLex (a.timestamp, a.instrumentId.toNat) < toLex (b.timestamp, b.instrumentId.toNat) := by
  rw [Prod.Lex.toLex_lt_toLex, TwapOrder.lt]
  by_cases ht : a.timestamp = b.timestamp <;> simp [ht, UInt64.lt_iff_toNat_lt]

theorem PnlAndPos.lt_iff (a b : PnlAndPos) :
    PnlAndPos.lt a b = true ↔ a.instrumentId.toNat < b.instrumentId.toNat := by
  rw [PnlAndPos.lt, decide_eq_true_iff, UInt64.lt_iff_toNat_lt]

/-- The order of the TWAP orders reported: by time, and at one time by the string of the
instrument. -/
def TwapOrder.Before (a b : TwapOrder) : Prop :=
  a.timestamp < b.timestamp ∨ a.timestamp = b.timestamp ∧
    instrumentString a.instrumentId ≤ instrumentString b.instrumentId

/-- The order of the profits reported. -/
def PnlAndPos.Before (a b : PnlAndPos) : Prop :=
  instrumentString a.instrumentId < instrumentString b.instrumentId

namespace TradeEngine

section contracts
variable {t : TradeEngine} {engines : List (ContractEngine OrderHeap)}
  (h : t.contracts = some engines)
include h

/-- **The TWAP orders reported** are those of the engines. -/
theorem getTWAPOrders_perm :
    ∃ rows, t.getTWAPOrders = some rows ∧
      rows.Perm (engines.flatMap (twapRows t.timestampOffset)) := by
  rw [getTWAPOrders, h, Option.map_some]
  refine ⟨_, rfl, ((sort_perm _ _).map _).trans (.of_eq ?_)⟩
  rw [List.map_flatMap]
  refine congrArg (engines.flatMap ·) (funext fun e => ?_)
  rw [contractTwapOrders, List.map_map, twapRows]
  exact List.map_congr_left fun o _ => by simp

/-- **The profits reported** are those of the engines. -/
theorem getPNLAndPos_perm :
    ∃ rows, t.getPNLAndPos = some rows ∧ rows.Perm (engines.map pnlRow) := by
  rw [getPNLAndPos, h, Option.map_some]
  refine ⟨_, rfl, ((sort_perm _ _).map _).trans (.of_eq ?_)⟩
  rw [List.map_map]
  exact List.map_congr_left fun e _ => by simp [contractPnlAndPos, pnlRow]

end contracts

/-! ## The order of the rows -/

theorem getTWAPOrders_sorted {t : TradeEngine} {rows : List TwapOrder}
    (h : t.getTWAPOrders = some rows) : rows.Pairwise TwapOrder.Before := by
  obtain ⟨engines, -, rfl⟩ := Option.map_eq_some_iff.mp h
  refine List.pairwise_map.mpr ((pairwise_sort TwapOrder.lt_iff _).imp fun {a b} hab => ?_)
  refine (Prod.Lex.toLex_le_toLex.mp hab).imp_right fun ⟨htime, hle⟩ => ⟨htime, ?_⟩
  have hnot : ¬ b.instrumentId < a.instrumentId := by
    rw [UInt64.lt_iff_toNat_lt]
    exact not_lt.mpr hle
  -- the string order of the rows is the order of the reversed instruments
  rwa [← reverseInstrumentId_reverseInstrumentId a.instrumentId,
    ← reverseInstrumentId_reverseInstrumentId b.instrumentId, reverseInstrumentId_lt_iff,
    List.not_lt] at hnot

theorem getPNLAndPos_sorted {t : TradeEngine} {rows : List PnlAndPos}
    (h : t.getPNLAndPos = some rows) (hnodup : (rows.map PnlAndPos.instrumentId).Nodup) :
    rows.Pairwise PnlAndPos.Before := by
  obtain ⟨engines, -, rfl⟩ := Option.map_eq_some_iff.mp h
  rw [List.Nodup, List.pairwise_map, List.pairwise_map] at hnodup
  refine List.pairwise_map.mpr
    (((pairwise_sort PnlAndPos.lt_iff _).and hnodup).imp fun {a b} ⟨hle, hne⟩ => ?_)
  have hlt : a.instrumentId < b.instrumentId := by
    rw [UInt64.lt_iff_toNat_lt]
    exact lt_of_le_of_ne hle fun heq => hne (congrArg reverseInstrumentId (UInt64.toNat_inj.mp heq))
  rwa [← reverseInstrumentId_reverseInstrumentId a.instrumentId,
    ← reverseInstrumentId_reverseInstrumentId b.instrumentId, reverseInstrumentId_lt_iff] at hlt

/-- **The results are complete and in canonical order**: every TWAP order and every contract is
reported once under its own instrument, by time and by the string of the instrument. -/
theorem results_canonical {t : TradeEngine} {engines : List (ContractEngine OrderHeap)}
    (h : t.contracts = some engines) (hnodup : (engines.map ContractEngine.instrument).Nodup) :
    (∃ rows, t.getTWAPOrders = some rows ∧
      rows.Perm (engines.flatMap (twapRows t.timestampOffset)) ∧ rows.Pairwise TwapOrder.Before) ∧
    ∃ rows, t.getPNLAndPos = some rows ∧
      rows.Perm (engines.map pnlRow) ∧ rows.Pairwise PnlAndPos.Before := by
  obtain ⟨twapOrders, htwap, hperm⟩ := getTWAPOrders_perm h
  obtain ⟨pnlAndPos, hpnl, hperm'⟩ := getPNLAndPos_perm h
  refine ⟨⟨twapOrders, htwap, hperm, getTWAPOrders_sorted htwap⟩, pnlAndPos, hpnl, hperm', ?_⟩
  refine getPNLAndPos_sorted hpnl ((hperm'.map PnlAndPos.instrumentId).nodup_iff.mpr ?_)
  rwa [List.map_map]

/-- Two contracts whose instruments are in the other order as strings than as numbers. -/
theorem results_canonical_of_two :
    let engine (instrument : UInt64) : ContractEngine OrderHeap :=
      (ContractEngine.new 2 1 ⟨10, 3⟩ instrument).insertAlpha ⟨5, 7⟩
    let t : TradeEngine :=
      { TradeEngine.new (2, 1) with
        lastContract := 2
        timestampOffset := 100
        contractEngines := fun i => some (engine (if i.val = 0 then 1 else 256)) }
    (∃ rows, t.getTWAPOrders = some rows ∧
      rows.Perm ([engine 1, engine 256].flatMap (twapRows 100)) ∧
        rows.Pairwise TwapOrder.Before) ∧
    ∃ rows, t.getPNLAndPos = some rows ∧
      rows.Perm ([engine 1, engine 256].map pnlRow) ∧ rows.Pairwise PnlAndPos.Before := by
  intro engine t
  have hcontracts : t.contracts = some [engine 1, engine 256] := rfl
  exact results_canonical hcontracts (by decide)

/-! ## The last release -/

theorem engine?_update (t : TradeEngine) (i : Fin maxContractNum) (e : ContractEngine OrderHeap)
    (j : ℕ) :
    ({ t with contractEngines := Function.update t.contractEngines i (some e) } :
      TradeEngine).engine? j = if j = i then some e else t.engine? j := by
  by_cases hj : j = i
  · subst hj
    simp [engine?]
  · rw [if_neg hj]
    unfold engine?
    split
    · exact Function.update_of_ne (fun heq => hj (congrArg Fin.val heq)) ..
    · rfl

/-- Completing the contracts up to `n` completes these and changes nothing else. -/
theorem completeContracts_spec {t : TradeEngine} (n : ℕ)
    (hengine : ∀ i < n, ∃ e, t.engine? i = some e) :
    ∃ u, (List.range n).foldlM completeContract t = some u ∧
      u = { t with contractEngines := u.contractEngines } ∧
      ∀ i, u.engine? i = if i < n then (t.engine? i).map ContractEngine.onComplete
        else t.engine? i := by
  induction n with
  | zero => exact ⟨t, rfl, rfl, fun i => by simp⟩
  | succ n ih =>
    obtain ⟨u, hu, hsame, hslot⟩ := ih fun i hi => hengine i (Nat.lt_succ_of_lt hi)
    obtain ⟨e, he⟩ := hengine n (Nat.lt_succ_self n)
    have hn : u.engine? n = some e := by rw [hslot, if_neg (lt_irrefl n), he]
    have hlt : n < maxContractNum := by
      by_contra hge
      rw [engine?, dif_neg hge] at hn
      cases hn
    have hget : u.contractEngines ⟨n, hlt⟩ = some e := by rwa [engine?, dif_pos hlt] at hn
    refine ⟨{ u with
      contractEngines := Function.update u.contractEngines ⟨n, hlt⟩ (some e.onComplete) },
      ?_, ?_, fun i => ?_⟩
    · rw [List.range_succ, List.foldlM_append, hu]
      simp only [Option.bind_eq_bind, Option.bind_some, List.foldlM_cons, List.foldlM_nil,
        completeContract, dif_pos hlt, hget, Option.map_some]
      rfl
    · rw [hsame]
    · rw [engine?_update, hslot]
      by_cases hi : i = n
      · rw [if_pos hi, if_pos (by omega), hi, he]
        rfl
      · have hiff : i < n + 1 ↔ i < n := by omega
        simp only [if_neg hi, hiff]

end TradeEngine
end MatchingEngine
