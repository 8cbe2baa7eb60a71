import Mathlib.Data.List.Count
import FieldRecords.Workload.Mix
import FieldRecords.Proofs.Loading

/-!
# What a mix draws

Shares that are counted up from a bar cut the draws behind it into stretches, one for each kind of
operation, as long as its share (`Mix.map_pickFrom`, `Mix.exists_stretch`), as long as no sum wraps.
The last bar is the wrapped sum of all shares, so **a draw below that sum is never beyond the mix**,
whether sums wrap on the way or not (`Mix.pickFrom_ne_none`). Hence a mix of a hundred is drawn with
exact percentages (`draws_follow_percentages`).

Whether a mix is a hundred is checked modulo 2^64 (`Mix.isValid_iff`), so the check is exact for
percentages that do not overflow and for no others (`mixes_checked_modulo_words`): a mix can pass it
whose draws all stand for one operation (`overflowing_mix_set_up`).
-/

namespace FieldRecords

/-- All kinds of operations, in the order in which they are counted up. -/
def Operation.all : List Operation := [read, update, insert, scan, readModifyWrite, delete]

namespace Mix

/-! ## 1. Shares -/

/-- The percentage of a kind. -/
def share (m : Mix) : Operation → UInt64
  | .read => m.read
  | .update => m.update
  | .insert => m.insert
  | .scan => m.scan
  | .readModifyWrite => m.readModifyWrite
  | .delete => m.delete

/-- All percentages together, as they are and not modulo 2^64. -/
def total (m : Mix) : Nat :=
  m.read.toNat + m.update.toNat + m.insert.toNat + m.scan.toNat + m.readModifyWrite.toNat +
    m.delete.toNat

/-- What the draws from 0 to 99 stand for, one after the other. -/
def outcomes (m : Mix) : List (Except Fault Operation) :=
  (List.range 100).map fun draw => m.pick draw.toUInt64

/-- Some shares together. -/
def sum (shares : List (Operation × UInt64)) : Nat :=
  shares.foldr (fun s rest => s.2.toNat + rest) 0

/-- The bar behind some shares, which wraps at 2^64. -/
def barAfter (bar : UInt64) (shares : List (Operation × UInt64)) : UInt64 :=
  shares.foldl (fun bar s => bar + s.2) bar

theorem shares_eq (m : Mix) : m.shares = Operation.all.map fun o => (o, m.share o) := rfl

theorem sum_shares (m : Mix) : sum m.shares = m.total := by
  simp only [sum, shares, total, List.foldr_cons, List.foldr_nil]
  omega

theorem nodup_all : Operation.all.Nodup := by decide

theorem mem_all (operation : Operation) : operation ∈ Operation.all := by
  cases operation <;> decide

/-- A bar that does not wrap is as far behind the one before as the share is long. -/
theorem toNat_bar {bar share : UInt64} {rest : Nat}
    (hroom : bar.toNat + (share.toNat + rest) < 18446744073709551616) :
    (bar + share).toNat = bar.toNat + share.toNat := by
  rw [UInt64.toNat_add]
  omega

theorem toNat_toUInt64 {n : Nat} (h : n < 18446744073709551616) : n.toUInt64.toNat = n :=
  UInt64.toNat_ofNat_of_lt' h

/-! ## 2. Counting up -/

/-- **Draws are cut into stretches**: from the bar on, they stand for each kind of operation as
    often as its share says, one kind after the other. -/
theorem map_pickFrom {shares : List (Operation × UInt64)} {bar : UInt64}
    (hroom : bar.toNat + sum shares < 18446744073709551616) :
    ((List.range' bar.toNat (sum shares)).map fun draw => pickFrom draw.toUInt64 bar shares) =
      (shares.flatMap fun s => List.replicate s.2.toNat s.1).map some := by
  induction shares generalizing bar with
  | nil => rfl
  | cons s shares ih =>
    have hbar := toNat_bar hroom
    have hsum : sum (s :: shares) = s.2.toNat + sum shares := rfl
    rw [hsum] at hroom
    have hbelow : ∀ draw ∈ List.range' bar.toNat s.2.toNat,
        pickFrom draw.toUInt64 bar (s :: shares) = some s.1 := by
      intro draw hdraw
      rw [List.mem_range'_1] at hdraw
      have hlt : draw.toUInt64 < bar + s.2 := by
        rw [UInt64.lt_iff_toNat_lt, toNat_toUInt64 (by omega), hbar]
        exact hdraw.2
      rw [pickFrom, if_pos hlt]
    have hbehind : ∀ draw ∈ List.range' (bar.toNat + s.2.toNat) (sum shares),
        pickFrom draw.toUInt64 bar (s :: shares) = pickFrom draw.toUInt64 (bar + s.2) shares := by
      intro draw hdraw
      rw [List.mem_range'_1] at hdraw
      have hle : ¬ draw.toUInt64 < bar + s.2 := by
        rw [UInt64.lt_iff_toNat_lt, toNat_toUInt64 (by omega), hbar]
        omega
      rw [pickFrom, if_neg hle]
    have hrest := @ih (bar + s.2) (by omega)
    rw [hbar] at hrest
    rw [hsum, ← List.range'_append_1, List.map_append, List.map_congr_left hbelow,
      List.map_congr_left hbehind, hrest, List.map_const', List.length_range', List.flatMap_cons,
      List.map_append, List.map_replicate]

/-- Only kinds that have a share are drawn. -/
theorem mem_of_pickFrom {shares : List (Operation × UInt64)} {draw bar : UInt64}
    {operation : Operation} (h : pickFrom draw bar shares = some operation) :
    operation ∈ shares.map Prod.fst := by
  induction shares generalizing bar with
  | nil => cases h
  | cons s shares ih =>
    rw [pickFrom] at h
    split at h
    · cases h
      exact List.mem_cons_self
    · exact List.mem_cons_of_mem _ (ih h)

/-- **Each kind has one stretch**, as long as its share. -/
theorem exists_stretch {shares : List (Operation × UInt64)} {bar : UInt64}
    (hroom : bar.toNat + sum shares < 18446744073709551616)
    (hdistinct : (shares.map Prod.fst).Nodup) {operation : Operation} {share : UInt64}
    (hmem : (operation, share) ∈ shares) :
    ∃ first, bar.toNat ≤ first ∧ first + share.toNat ≤ bar.toNat + sum shares ∧
      ∀ draw, bar ≤ draw → (pickFrom draw bar shares = some operation ↔
        first ≤ draw.toNat ∧ draw.toNat < first + share.toNat) := by
  induction shares generalizing bar with
  | nil => exact absurd hmem List.not_mem_nil
  | cons s shares ih =>
    have hbar := toNat_bar hroom
    have hsum : sum (s :: shares) = s.2.toNat + sum shares := rfl
    rw [hsum] at hroom ⊢
    obtain ⟨hnew, hdistinct⟩ := List.nodup_cons.1 hdistinct
    rcases List.mem_cons.1 hmem with rfl | hmem
    · refine ⟨bar.toNat, Nat.le_refl _, by dsimp only; omega, fun draw hdraw => ?_⟩
      rw [UInt64.le_iff_toNat_le] at hdraw
      rw [pickFrom]
      split
      · rename_i hlt
        rw [UInt64.lt_iff_toNat_lt, hbar] at hlt
        exact iff_of_true rfl ⟨hdraw, hlt⟩
      · rename_i hle
        rw [UInt64.lt_iff_toNat_lt, hbar] at hle
        refine iff_of_false (fun hpick => ?_) (fun h => hle h.2)
        exact hnew (mem_of_pickFrom hpick)
    · obtain ⟨first, hfirst, hlast, hstretch⟩ := @ih (bar + s.2) (by omega) hdistinct hmem
      refine ⟨first, by omega, by omega, fun draw hdraw => ?_⟩
      rw [pickFrom]
      split
      · rename_i hlt
        have hother : s.1 ≠ operation := by
          rintro rfl
          exact hnew (List.mem_map.2 ⟨_, hmem, rfl⟩)
        rw [UInt64.lt_iff_toNat_lt] at hlt
        exact iff_of_false (fun h => hother (Option.some.inj h)) (by omega)
      · rename_i hle
        exact hstretch draw (UInt64.not_lt.1 hle)

/-- **A draw below the last bar stands for some operation**, also where bars wrap. -/
theorem pickFrom_ne_none {s : Operation × UInt64} {shares : List (Operation × UInt64)}
    {draw bar : UInt64} (h : draw < barAfter bar (s :: shares)) :
    pickFrom draw bar (s :: shares) ≠ none := by
  induction shares generalizing s bar with
  | nil =>
    have hlt : draw < bar + s.2 := h
    rw [pickFrom, if_pos hlt]
    exact Option.some_ne_none _
  | cons next shares ih =>
    rw [pickFrom]
    split
    · exact Option.some_ne_none _
    · exact ih h

/-! ## 3. What a mix draws -/

theorem pick_eq (m : Mix) (draw : UInt64) :
    m.pick draw = (pickFrom draw 0 m.shares).elim (.error .drawBeyondMix) .ok := by
  unfold pick
  cases pickFrom draw 0 m.shares <;> rfl

theorem pick_eq_ok {m : Mix} {draw : UInt64} {operation : Operation} :
    m.pick draw = .ok operation ↔ pickFrom draw 0 m.shares = some operation := by
  rw [pick_eq]
  cases pickFrom draw 0 m.shares <;> simp

/-- The bar behind all shares is the sum that is checked. -/
theorem isValid_iff_barAfter {m : Mix} : m.isValid = true ↔ barAfter 0 m.shares = 100 := by
  simp only [isValid, barAfter, shares, List.foldl_cons, List.foldl_nil, UInt64.zero_add,
    beq_iff_eq]

/-- **A mix is checked modulo 2^64.** -/
theorem isValid_iff {m : Mix} : m.isValid = true ↔ m.total % 18446744073709551616 = 100 := by
  simp only [isValid, total, beq_iff_eq, ← UInt64.toNat_inj, UInt64.toNat_add]
  show _ % _ = 100 ↔ _
  omega

/-- **No draw is beyond a mix that is accepted.** -/
theorem exists_pick_of_isValid {m : Mix} (h : m.isValid = true) {draw : UInt64}
    (hdraw : draw < 100) : ∃ operation, m.pick draw = .ok operation := by
  have hlast : draw < barAfter 0 m.shares := by
    rw [isValid_iff_barAfter.1 h]
    exact hdraw
  obtain ⟨operation, hpick⟩ := Option.ne_none_iff_exists'.1 (pickFrom_ne_none hlast)
  exact ⟨operation, pick_eq_ok.2 hpick⟩

/-- **The draws of a mix of a hundred**, in ascending order, stand for each kind as often as its
    percentage says, one kind after the other. -/
theorem outcomes_eq {m : Mix} (h : m.total = 100) :
    m.outcomes = (Operation.all.flatMap fun o => List.replicate (m.share o).toNat o).map .ok := by
  have hroom : (0 : UInt64).toNat + sum m.shares < 18446744073709551616 := by
    rw [sum_shares, h]
    decide
  have hpicks := map_pickFrom hroom
  rw [sum_shares, h, shares_eq, List.flatMap_map, UInt64.toNat_zero] at hpicks
  calc m.outcomes
      = ((List.range' 0 100).map fun draw => pickFrom draw.toUInt64 0 m.shares).map
          fun found => found.elim (.error .drawBeyondMix) .ok := by
        rw [outcomes, List.range_eq_range', List.map_map]
        exact List.map_congr_left fun draw _ => m.pick_eq draw.toUInt64
    _ = _ := by
        rw [shares_eq, hpicks, List.map_map]
        rfl

/-- Each kind is drawn in one stretch. -/
theorem exists_stretch_of_total {m : Mix} (h : m.total = 100) (operation : Operation) :
    ∃ first, first + (m.share operation).toNat ≤ 100 ∧ ∀ draw : UInt64,
      (m.pick draw = .ok operation ↔
        first ≤ draw.toNat ∧ draw.toNat < first + (m.share operation).toNat) := by
  have hroom : (0 : UInt64).toNat + sum m.shares < 18446744073709551616 := by
    rw [sum_shares, h]
    decide
  have hmem : (operation, m.share operation) ∈ m.shares := by
    rw [shares_eq]
    exact List.mem_map_of_mem (mem_all operation)
  obtain ⟨first, -, hlast, hstretch⟩ := exists_stretch hroom (by exact nodup_all) hmem
  rw [sum_shares, h] at hlast
  refine ⟨first, by simpa using hlast, fun draw => ?_⟩
  rw [pick_eq_ok]
  exact hstretch draw UInt64.zero_le

/-- If every draw stands for some operation, all of them together are all draws. -/
theorem length_eq_counts {outcomes : List (Except Fault Operation)}
    (h : ∀ outcome ∈ outcomes, ∃ operation, outcome = .ok operation) :
    outcomes.length = outcomes.count (.ok .read) + outcomes.count (.ok .update) +
      outcomes.count (.ok .insert) + outcomes.count (.ok .scan) +
      outcomes.count (.ok .readModifyWrite) + outcomes.count (.ok .delete) := by
  induction outcomes with
  | nil => rfl
  | cons outcome outcomes ih =>
    obtain ⟨operation, rfl⟩ := h outcome List.mem_cons_self
    have hrest := ih fun other hother => h other (List.mem_cons_of_mem _ hother)
    rw [List.length_cons, hrest]
    cases operation <;> simp <;> omega

/-- **A mix of a hundred is followed**: each kind is drawn as often as its percentage says. -/
theorem count_outcomes {m : Mix} (h : m.total = 100) (operation : Operation) :
    m.outcomes.count (.ok operation) = (m.share operation).toNat := by
  rw [outcomes_eq h, List.count_map_of_injective _ _ fun _ _ he => Except.ok.inj he]
  cases operation <;> simp [Operation.all, List.count_append, List.count_replicate]

/-- **Of the mixes that are accepted no other is followed.** -/
theorem total_of_count_outcomes {m : Mix} (hvalid : m.isValid = true)
    (h : ∀ operation, m.outcomes.count (.ok operation) = (m.share operation).toNat) :
    m.total = 100 := by
  have hok : ∀ outcome ∈ m.outcomes, ∃ operation, outcome = .ok operation := by
    intro outcome houtcome
    obtain ⟨draw, hdraw, rfl⟩ := List.mem_map.1 houtcome
    refine exists_pick_of_isValid hvalid ?_
    rw [List.mem_range] at hdraw
    rw [UInt64.lt_iff_toNat_lt, toNat_toUInt64 (by omega)]
    exact hdraw
  have hhundred : m.outcomes.length = 100 := by simp [outcomes]
  have hlength := length_eq_counts hok
  simp only [h] at hlength
  exact hlength.symm.trans hhundred

end Mix

/-! ## 4. Mixes that are drawn from, and mixes that are accepted -/

/-- **Draws follow the percentages.** If the percentages of a mix are a hundred together, the draws
    from 0 to 99 stand, one after the other, for each kind of operation as often as its percentage
    says: first for reads, then for updates, insertions, scans, reads that are followed by an
    update, and deletions. So each kind has one stretch of draws as long as its percentage, a kind
    without a percentage is not drawn, and no draw is beyond the mix. No draw is beyond any mix that
    is accepted either, though its sums may wrap. -/
theorem draws_follow_percentages (m : Mix) :
    (m.total = 100 →
      m.outcomes = (Operation.all.flatMap fun o => List.replicate (m.share o).toNat o).map .ok ∧
      ∀ operation,
        m.outcomes.count (.ok operation) = (m.share operation).toNat ∧
        ∃ first, first + (m.share operation).toNat ≤ 100 ∧ ∀ draw : UInt64,
          (m.pick draw = .ok operation ↔
            first ≤ draw.toNat ∧ draw.toNat < first + (m.share operation).toNat)) ∧
    (m.isValid = true → ∀ draw < 100, ∃ operation, m.pick draw = .ok operation) := by
  refine ⟨fun h => ⟨Mix.outcomes_eq h, fun operation => ⟨Mix.count_outcomes h operation, ?_⟩⟩,
    fun h draw hdraw => Mix.exists_pick_of_isValid h hdraw⟩
  exact Mix.exists_stretch_of_total h operation

/-- Two kinds have no percentage, one stands between them and one in front. The other mix wraps
    twice, at its second and at its last bar. -/
theorem draws_of_mixes_with_gaps :
    let m : Mix := ⟨30, 0, 10, 0, 60, 0⟩
    let wrapping : Mix := ⟨20, 0xffffffffffffffff, 5, 0, 0xfffffffffffffff0, 92⟩
    m.total = 100 ∧ wrapping.isValid = true ∧
      m.outcomes = List.replicate 30 (.ok .read) ++ List.replicate 10 (.ok .insert) ++
        List.replicate 60 (.ok .readModifyWrite) ∧
      m.outcomes.count (.ok .scan) = 0 ∧ ∃ operation, wrapping.pick 99 = .ok operation := by
  intro m wrapping
  have htotal : m.total = 100 := by decide
  have hvalid : wrapping.isValid = true := by decide
  obtain ⟨hfollowed, -⟩ := draws_follow_percentages m
  obtain ⟨houtcomes, hkinds⟩ := hfollowed htotal
  obtain ⟨-, hpicks⟩ := draws_follow_percentages wrapping
  refine ⟨htotal, hvalid, houtcomes.trans (by decide), (hkinds .scan).1, ?_⟩
  exact hpicks hvalid 99 (by decide)

/-- **Mixes are checked modulo 2^64.** A mix is accepted if its percentages are a hundred together
    modulo 2^64, so the check is exact as long as they are together less than 2^64 and a hundred.
    Setting up lets through accepted mixes only, and of those just the ones that are a hundred
    together are followed by their draws. -/
theorem mixes_checked_modulo_words {U Z : Type} [UniformDraws U] [ZipfDraws Z] (m : Mix) :
    (m.isValid = true ↔ m.total % 18446744073709551616 = 100) ∧
    (m.total < 18446744073709551716 → (m.isValid = true ↔ m.total = 100)) ∧
    ∀ (c : BenchConfig) (b : Bench U Z), c.mix = m → Bench.setUp c = .ok b →
      m.isValid = true ∧
      ((∀ operation, m.outcomes.count (.ok operation) = (m.share operation).toNat) ↔
        m.total = 100) := by
  refine ⟨Mix.isValid_iff, fun hroom => ?_, fun c b hmix hsetUp => ?_⟩
  · rw [Mix.isValid_iff]
    omega
  · subst hmix
    obtain ⟨-, hvalid, -⟩ := Bench.setUp_eq_ok.1 hsetUp
    exact ⟨hvalid, Mix.total_of_count_outcomes hvalid, Mix.count_outcomes⟩

/-- The percentages of this configuration are 2^64 and a hundred together, and it is set up. Both
    large ones are those of a file whose numbers have a sign. -/
def overflowingConfig : BenchConfig :=
  { name := "wide", threads := [1], time := 1, repetitions := 1, recordCount := 32,
    distribution := .uniform, mix := ⟨9223372036854775807, 9223372036854775807, 102, 0, 0, 0⟩,
    memoryMegabytes := 1, filePath := "rows", fieldCount := 1, fieldLength := 3,
    fieldStem := "field", readAllFields := true, writeAllFields := true, scanCount := 10,
    engine := .memory }

/-- What setting up makes of it. -/
def overflowingBench : Bench UniformSampler ZipfSampler :=
  ⟨overflowingConfig, Bench.codecConfig overflowingConfig, ⟨["field0"], 3⟩,
    .uniform ⟨0, 32, 4294967296⟩⟩

theorem setUp_overflowingConfig : Bench.setUp overflowingConfig = .ok overflowingBench := by
  have hnames : ((List.range 1).map fun i => "field" ++ toString i) = ["field0"] := by
    decide +kernel
  have hschema : Schema.create "field" 1 3 = .ok ⟨["field0"], 3⟩ :=
    Schema.create_eq_ok.2 ⟨by decide, by decide, by rw [hnames]⟩
  have hsampler : Sampler.create .uniform 0 32 = .ok overflowingBench.sampler := by rfl
  exact Bench.setUp_eq_ok.2 ⟨rfl, by decide, hschema, by rfl, hsampler, rfl, rfl⟩

/-- Small percentages are checked exactly; those that overflow are accepted, and their configuration
    is set up with draws that do not follow it. -/
theorem overflow_is_not_noticed :
    let tooLarge : Mix := ⟨50, 51, 0, 0, 0, 0⟩
    let m : Mix := overflowingConfig.mix
    tooLarge.total < 18446744073709551716 ∧ ¬ tooLarge.isValid = true ∧
      Bench.setUp overflowingConfig = .ok overflowingBench ∧ m.isValid = true ∧
      ¬ ∀ operation, m.outcomes.count (.ok operation) = (m.share operation).toNat := by
  intro tooLarge m
  have hroom : tooLarge.total < 18446744073709551716 := by decide
  obtain ⟨-, hexact, -⟩ :=
    mixes_checked_modulo_words (U := UniformSampler) (Z := ZipfSampler) tooLarge
  obtain ⟨-, -, hsetUp⟩ := mixes_checked_modulo_words (U := UniformSampler) (Z := ZipfSampler) m
  obtain ⟨hvalid, hfollowed⟩ :=
    hsetUp overflowingConfig overflowingBench rfl setUp_overflowingConfig
  refine ⟨hroom, fun hother => ?_, setUp_overflowingConfig, hvalid, fun h => ?_⟩
  · exact absurd ((hexact hroom).1 hother) (by decide)
  · exact absurd (hfollowed.1 h) (by decide)

/-- **An accepted mix need not be a hundred together**: two percentages of 2^63 - 1 and one of 102
    are accepted and set up, and then every draw stands for a read. -/
theorem overflowing_mix_set_up :
    let m : Mix := overflowingConfig.mix
    m.isValid = true ∧
      (∃ b : Bench UniformSampler ZipfSampler, Bench.setUp overflowingConfig = .ok b) ∧
      m.total ≠ 100 ∧
      ∀ draw < 100, m.pick draw = .ok .read := by
  intro m
  refine ⟨by decide, ⟨overflowingBench, setUp_overflowingConfig⟩, by decide, fun draw hdraw => ?_⟩
  have hbelow : draw < 0 + 9223372036854775807 := by
    rw [UInt64.lt_iff_toNat_lt] at hdraw ⊢
    exact Nat.lt_trans hdraw (by decide)
  rw [Mix.pick_eq_ok, Mix.shares_eq]
  exact if_pos hbelow

end FieldRecords
