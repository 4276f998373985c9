import SamplePrograms.BandhAnalysis.Model

/-!
# The number of days lost

The program counts the working days that are a multiple of some parameter, so
the order of the parties and repeated parties make no difference, and one more
party loses no day less.
-/

namespace SamplePrograms.BandhAnalysis
open ForLoop

/-- The first day is a Monday. -/
def IsWeekday (d : ℕ) : Prop := d % daysInterval ≠ 0 ∧ d % daysInterval ≠ 6

instance (d : ℕ) : Decidable (IsWeekday d) := inferInstanceAs (Decidable (_ ∧ _))

/-- The working days on which some party calls a strike. -/
def lostDays (days : ℕ) (params : List (BitVec 32)) : Finset ℕ :=
  {d ∈ Finset.Icc 1 days | IsWeekday d ∧ ∃ b ∈ params.map BitVec.toNat, b ∣ d}

/-- The parameter is positive, and the first multiple after the days is a 64-bit word. -/
structure Admissible (days : BitVec 64) (bp : BitVec 32) : Prop where
  positive : 0 < bp.toNat
  room : days.toNat + bp.toNat < 2 ^ 64

/-! ## One party -/

section Party
variable {days : BitVec 64} {bp : BitVec 32}

theorem mulParam_ofNat (k : ℕ) : mulParam (.ofNat 64 k) bp = .ofNat 64 (k * bp.toNat) := by
  rw [mulParam, BitVec.ofNat_mul]
  congr 1
  apply BitVec.eq_of_toNat_eq
  simp

/-- The variables of the inner loop in its `k`-th iteration. -/
def counterAt (bp : BitVec 32) (k : ℕ) : Counter := ⟨.ofNat 64 k, .ofNat 64 (k * bp.toNat)⟩

theorem counterAt_one : counterAt bp 1 = .first bp := by
  rw [counterAt, Counter.first, ← mulParam_ofNat]
  rfl

theorem next_counterAt (k : ℕ) : (counterAt bp k).next bp = counterAt bp (k + 1) := by
  have index : BitVec.ofNat 64 k + 1 = BitVec.ofNat 64 (k + 1) := by
    rw [BitVec.ofNat_add]
    rfl
  simp only [Counter.next, counterAt, index, mulParam_ofNat]

/-- The product of the index and the parameter does not wrap around in the loop. -/
theorem Admissible.product_lt (h : Admissible days bp) {k : ℕ}
    (hk : k ≤ days.toNat / bp.toNat + 1) : k * bp.toNat < 2 ^ 64 := by
  calc k * bp.toNat
      ≤ (days.toNat / bp.toNat + 1) * bp.toNat := Nat.mul_le_mul_right _ hk
    _ = days.toNat / bp.toNat * bp.toNat + bp.toNat := Nat.succ_mul _ _
    _ ≤ days.toNat + bp.toNat := Nat.add_le_add_right (Nat.div_mul_le_self _ _) _
    _ < 2 ^ 64 := h.room

theorem Admissible.condVal_toNat (h : Admissible days bp) {k : ℕ}
    (hk : k ≤ days.toNat / bp.toNat + 1) : (counterAt bp k).condVal.toNat = k * bp.toNat := by
  rw [counterAt, BitVec.toNat_ofNat, Nat.mod_eq_of_lt (h.product_lt hk)]

/-- The loop runs once for each multiple of the parameter. -/
theorem Admissible.counts (h : Admissible days bp) :
    Counts (fun c => c.condVal.ule days) (Counter.next bp) (.first bp)
      ((List.range' 1 (days.toNat / bp.toNat)).map (counterAt bp)) := by
  rw [← counterAt_one]
  apply counts_map (counterAt bp)
  · intro k _ _
    exact next_counterAt k
  · intro k _ high
    rw [BitVec.ule_iff_toNat_le, h.condVal_toNat (by omega)]
    exact (Nat.le_div_iff_mul_le h.positive).mp (by omega)
  · rw [Bool.eq_false_iff, Ne, BitVec.ule_iff_toNat_le, Nat.add_comm 1,
      h.condVal_toNat (Nat.le_refl _), Nat.not_le, Nat.succ_mul]
    exact Nat.lt_div_mul_add h.positive

/-- The party calls a strike on the day. -/
def CallsStrike (days : ℕ) (bp : BitVec 32) (d : ℕ) : Prop :=
  (1 ≤ d ∧ d ≤ days) ∧ IsWeekday d ∧ bp.toNat ∣ d

/-- The remainder of a multiple of the parameter decides whether it is a working day. -/
theorem Admissible.isWorkingDay (h : Admissible days bp) {k : ℕ}
    (hk : k ≤ days.toNat / bp.toNat + 1) :
    isWorkingDay (((counterAt bp k).condVal % .ofNat 64 daysInterval).setWidth 32) ↔
      IsWeekday (k * bp.toNat) := by
  have remainder : (((counterAt bp k).condVal % .ofNat 64 daysInterval).setWidth 32).toNat =
      k * bp.toNat % 7 := by
    have modulus : (BitVec.ofNat 64 daysInterval).toNat = 7 := rfl
    rw [BitVec.toNat_setWidth, BitVec.toNat_umod, h.condVal_toNat hk, modulus]
    omega
  rw [BandhAnalysis.isWorkingDay, remainder, ← Bool.decide_and, decide_eq_true_iff]
  simp only [IsWeekday, daysInterval]
  omega

/-- The loop visits the multiples of the parameter among the days. -/
theorem Admissible.exists_visit (h : Admissible days bp) (d : BitVec 64) :
    (∃ c ∈ (List.range' 1 (days.toNat / bp.toNat)).map (counterAt bp),
      BandhAnalysis.isWorkingDay ((c.condVal % .ofNat 64 daysInterval).setWidth 32) = true ∧
        mulParam c.index bp = d) ↔ CallsStrike days.toNat bp d.toNat := by
  simp only [List.mem_map, List.mem_range'_1]
  constructor
  · rintro ⟨_, ⟨k, ⟨low, high⟩, rfl⟩, working, rfl⟩
    have le : k ≤ days.toNat / bp.toNat := by omega
    have day : (mulParam (counterAt bp k).index bp).toNat = k * bp.toNat := by
      rw [counterAt, mulParam_ofNat, BitVec.toNat_ofNat]
      exact Nat.mod_eq_of_lt (h.product_lt (Nat.le_succ_of_le le))
    rw [day]
    refine ⟨⟨Nat.mul_pos low h.positive, (Nat.le_div_iff_mul_le h.positive).mp le⟩, ?_, ?_⟩
    · exact (h.isWorkingDay (Nat.le_succ_of_le le)).mp working
    · exact Nat.dvd_mul_left _ _
  · rintro ⟨⟨low, high⟩, weekday, k, hk⟩
    rw [Nat.mul_comm] at hk
    rw [hk] at low high weekday
    have le := (Nat.le_div_iff_mul_le h.positive).mpr high
    have pos := Nat.pos_of_mul_pos_right low
    refine ⟨_, ⟨k, ⟨pos, by omega⟩, rfl⟩, (h.isWorkingDay (Nat.le_succ_of_le le)).mpr weekday, ?_⟩
    rw [counterAt, mulParam_ofNat, ← hk, BitVec.ofNat_toNat, BitVec.setWidth_eq]

/-- The inner loop adds the days on which the party calls a strike. -/
theorem Admissible.partyDays (h : Admissible days bp) (workingSet : Finset (BitVec 64)) :
    ∃ visited, partyDays days bp workingSet = some visited ∧
      ∀ d, d ∈ visited ↔ d ∈ workingSet ∨ CallsStrike days.toNat bp d.toNat := by
  refine ⟨_, h.counts.forLoop_pure (fun _ _ _ => rfl) ?_ workingSet, ?_⟩
  · rw [List.length_map, List.length_range']
    exact (Nat.div_le_self _ _).trans_lt days.isLt
  · intro d
    rw [← h.exists_visit]
    exact mem_foldl_insert _ (fun c : Counter => mulParam c.index bp) _ workingSet d

end Party

/-! ## All parties -/

section Parties
variable {days : BitVec 64} {params : List (BitVec 32)}

/-- The outer loop adds the days on which some party calls a strike. -/
theorem foldlM_partyDays (admissible : ∀ bp ∈ params, Admissible days bp)
    (workingSet : Finset (BitVec 64)) :
    ∃ visited,
      (partyVector days params).foldlM (fun s pr => partyDays days pr.bparam s) workingSet =
        some visited ∧
      ∀ d, d ∈ visited ↔ d ∈ workingSet ∨ ∃ bp ∈ params, CallsStrike days.toNat bp d.toNat := by
  induction params generalizing workingSet with
  | nil => exact ⟨workingSet, rfl, by simp⟩
  | cons bp params ih =>
      obtain ⟨first, run, mem⟩ := (admissible bp List.mem_cons_self).partyDays workingSet
      obtain ⟨visited, runs, mems⟩ :=
        ih (fun b hb => admissible b (List.mem_cons_of_mem bp hb)) first
      refine ⟨visited, ?_, ?_⟩
      · rw [partyVector, List.map_cons, List.foldlM_cons, run]
        exact runs
      · intro d
        simp [mems, mem, or_assoc]

theorem mem_lostDays {days d : ℕ} :
    d ∈ lostDays days params ↔ ∃ bp ∈ params, CallsStrike days bp d := by
  simp only [lostDays, CallsStrike, Finset.mem_filter, Finset.mem_Icc, List.mem_map]
  constructor
  · rintro ⟨range, weekday, _, ⟨bp, hbp, rfl⟩, multiple⟩
    exact ⟨bp, hbp, range, weekday, multiple⟩
  · rintro ⟨bp, hbp, range, weekday, multiple⟩
    exact ⟨range, weekday, _, ⟨bp, hbp, rfl⟩, multiple⟩

/-- The answer is the number of working days on which some party calls a strike. -/
theorem processOneTestCase_partyVector (nonempty : params ≠ [])
    (admissible : ∀ bp ∈ params, Admissible days bp) :
    processOneTestCase (partyVector days params) =
      some (.ofNat 32 (lostDays days.toNat params).card) := by
  obtain ⟨visited, run, mem⟩ := foldlM_partyDays admissible ∅
  have head : ((partyVector days params).head?.map Party.totDaysCount) = some days := by
    obtain ⟨bp, rest, rfl⟩ := List.exists_cons_of_ne_nil nonempty
    rfl
  have card : visited.card = (lostDays days.toNat params).card := by
    have image : visited.image BitVec.toNat = lostDays days.toNat params := by
      ext d
      simp only [Finset.mem_image, mem, Finset.notMem_empty, false_or, mem_lostDays]
      constructor
      · rintro ⟨d, strike, rfl⟩
        exact strike
      · rintro ⟨bp, hbp, strike⟩
        have small : d < 2 ^ 64 := strike.1.2.trans_lt days.isLt
        have value : (BitVec.ofNat 64 d).toNat = d := by
          rw [BitVec.toNat_ofNat, Nat.mod_eq_of_lt small]
        exact ⟨.ofNat 64 d, ⟨bp, hbp, value.symm ▸ strike⟩, value⟩
    rw [← image, Finset.card_image_of_injective visited fun _ _ => BitVec.eq_of_toNat_eq]
  obtain ⟨first, head, rfl⟩ := Option.map_eq_some_iff.mp head
  rw [processOneTestCase, head]
  simp only [Option.bind_eq_bind, Option.bind_some]
  rw [run]
  simp [card]

theorem lostDays_congr {params' : List (BitVec 32)} (same : ∀ bp, bp ∈ params' ↔ bp ∈ params)
    (days : ℕ) : lostDays days params' = lostDays days params := by
  ext d
  simp only [mem_lostDays, same]

theorem lostDays_mono {params' : List (BitVec 32)} (sub : params ⊆ params') (days : ℕ) :
    lostDays days params ⊆ lostDays days params' := by
  intro d hd
  obtain ⟨bp, hbp, strike⟩ := mem_lostDays.mp hd
  exact mem_lostDays.mpr ⟨bp, sub hbp, strike⟩

theorem lostDays_card_le (days : ℕ) (params : List (BitVec 32)) :
    (lostDays days params).card ≤ days := by
  calc (lostDays days params).card
      ≤ (Finset.Icc 1 days).card := Finset.card_filter_le _ _
    _ = days := Nat.card_Icc 1 days

/-- The answer is the number of working days on which some party calls a strike, as a
32-bit word. It depends on the set of the parameters only, and below `2 ^ 32` days it
does not decrease when a party is added. -/
theorem processOneTestCase_counts (days : BitVec 64) (params : List (BitVec 32))
    (nonempty : params ≠ []) (admissible : ∀ bp ∈ params, Admissible days bp) :
    processOneTestCase (partyVector days params) =
        some (.ofNat 32 (lostDays days.toNat params).card) ∧
      (∀ params', (∀ bp, bp ∈ params' ↔ bp ∈ params) →
        processOneTestCase (partyVector days params') =
          processOneTestCase (partyVector days params)) ∧
      (days.toNat < 2 ^ 32 → ∀ added params', Admissible days added →
        (∀ bp, bp ∈ params' ↔ bp = added ∨ bp ∈ params) →
        ∃ answer answer', processOneTestCase (partyVector days params) = some answer ∧
          processOneTestCase (partyVector days params') = some answer' ∧
          answer.toNat ≤ answer'.toNat) := by
  have answer := processOneTestCase_partyVector nonempty admissible
  refine ⟨answer, ?_, ?_⟩
  · intro params' same
    have nonempty' : params' ≠ [] := by
      obtain ⟨bp, hbp⟩ := List.exists_mem_of_ne_nil params nonempty
      exact List.ne_nil_of_mem ((same bp).mpr hbp)
    rw [answer, processOneTestCase_partyVector nonempty' fun bp hbp =>
      admissible bp ((same bp).mp hbp), lostDays_congr same]
  · intro few added params' hadded members
    have nonempty' : params' ≠ [] := List.ne_nil_of_mem ((members added).mpr (.inl rfl))
    have admissible' : ∀ bp ∈ params', Admissible days bp := by
      intro bp hbp
      rcases (members bp).mp hbp with rfl | old
      · exact hadded
      · exact admissible bp old
    have sub : params ⊆ params' := fun bp hbp => (members bp).mpr (.inr hbp)
    have le := Finset.card_le_card (lostDays_mono sub days.toNat)
    have fits := (lostDays_card_le days.toNat params').trans_lt few
    refine ⟨_, _, answer, processOneTestCase_partyVector nonempty' admissible', ?_⟩
    rwa [BitVec.toNat_ofNat, BitVec.toNat_ofNat, Nat.mod_eq_of_lt fits,
      Nat.mod_eq_of_lt (le.trans_lt fits)]

/-- Two weeks with three parties, and again with one of them twice. -/
theorem processOneTestCase_counts_sample :
    processOneTestCase (partyVector 14 [3, 4, 8]) = some 5 ∧
      processOneTestCase (partyVector 14 [8, 3, 4, 3]) = some 5 := by
  have admissible : ∀ bp ∈ [3, 4, 8], Admissible 14 bp := by
    intro bp hbp
    simp only [List.mem_cons, List.not_mem_nil, or_false] at hbp
    rcases hbp with rfl | rfl | rfl <;> exact ⟨by decide, by decide⟩
  obtain ⟨counted, same, -⟩ := processOneTestCase_counts 14 [3, 4, 8] (by simp) admissible
  have card : (lostDays (BitVec.toNat 14#64) [3, 4, 8]).card = 5 := by decide
  have reordered : ∀ bp : BitVec 32, bp ∈ [8, 3, 4, 3] ↔ bp ∈ [3, 4, 8] := by
    intro bp
    grind
  have answer : processOneTestCase (partyVector 14 [3, 4, 8]) = some 5 := by
    rw [counted]
    exact congrArg (fun n => some (BitVec.ofNat 32 n)) card
  exact ⟨answer, (same _ reordered).trans answer⟩

end Parties

end SamplePrograms.BandhAnalysis
