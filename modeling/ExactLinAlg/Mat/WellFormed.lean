import ExactLinAlg.Mat.RowOp

/-!
# The dimensions of results

Each construction gives a matrix whose rows agree with its dimensions, and each operation on
such matrices gives one again, with the dimensions that its statement names.
-/

namespace ExactLinAlg

/-! ## Lengths of vectors -/

namespace Vec

theorem length_of_combine {op : Fraction → Fraction → Except Error Fraction} {v w u : Vec}
    (h : combine op v w = .ok u) : v.length = w.length ∧ u.length = v.length := by
  obtain ⟨_, hdims, h⟩ := bind_eq_ok_iff.1 h
  have hlen := checkDims_eq_ok_iff.1 hdims
  refine ⟨hlen, ?_⟩
  rw [length_of_mapM h, List.length_zip, hlen, Nat.min_self]

theorem length_of_scale {v u : Vec} {factor : Fraction} (h : scale v factor = .ok u) :
    u.length = v.length :=
  length_of_mapM h

end Vec

namespace Mat

/-! ## Constructions -/

theorem wellFormed_build (rows cols : Nat) (f : Nat → Nat → Fraction) :
    (build rows cols f).WellFormed := by
  refine ⟨by simp [build], fun row hrow => ?_⟩
  obtain ⟨i, -, rfl⟩ := List.mem_map.1 hrow
  simp [build, Vec.build]

theorem wellFormed_zeros (rows cols : Nat) : (zeros rows cols).WellFormed := by
  refine ⟨by simp [zeros], fun row hrow => ?_⟩
  rw [List.eq_of_mem_replicate hrow]
  simp [zeros, Vec.zeros]

theorem wellFormed_identity (size : Nat) : (identity size).WellFormed :=
  wellFormed_build size size _

/-- The first row fixes the number of columns. -/
theorem ofRows_eq_ok_iff {data : List Vec} {m : Mat} :
    ofRows data = .ok m ↔ (∀ row ∈ data, row.length = (data.head?.getD []).length) ∧
      m = ⟨data.length, (data.head?.getD []).length, data⟩ := by
  constructor
  · intro h
    obtain ⟨_, hrows, h⟩ := bind_eq_ok_iff.1 h
    cases h
    exact ⟨fun row hrow => (checkDims_eq_ok_iff.1 (forM_eq_ok_iff.1 hrows row hrow)).symm, rfl⟩
  · rintro ⟨hrows, rfl⟩
    exact bind_eq_ok_iff.2 ⟨(), forM_eq_ok_iff.2 fun row hrow =>
      checkDims_eq_ok_iff.2 (hrows row hrow).symm, rfl⟩

theorem wellFormed_of_ofRows {data : List Vec} {m : Mat} (h : ofRows data = .ok m) :
    m.WellFormed := by
  obtain ⟨hrows, rfl⟩ := ofRows_eq_ok_iff.1 h
  exact ⟨rfl, hrows⟩

/-! ## Entries and rows -/

/-- The positions of the rows are those below the number of rows. -/
theorem WellFormed.line_eq_ok {m : Mat} (hm : m.WellFormed) {i : Nat} (hi : i < m.rows) :
    ∃ row ∈ m.data, m.line i = .ok row ∧ row.length = m.cols := by
  have hlt : i < m.data.length := by rwa [hm.length_data]
  refine ⟨m.data[i], List.getElem_mem hlt, ?_, hm.length_row _ (List.getElem_mem hlt)⟩
  rw [line, List.getElem?_eq_getElem hlt]

theorem WellFormed.line_of_le {m : Mat} (hm : m.WellFormed) {i : Nat} (hi : m.rows ≤ i) :
    m.line i = .error .outOfRange := by
  have hle : m.data.length ≤ i := by rwa [hm.length_data]
  rw [line, List.getElem?_eq_none hle]

theorem WellFormed.length_of_line {m : Mat} (hm : m.WellFormed) {i : Nat} {row : Vec}
    (h : m.line i = .ok row) : row.length = m.cols := by
  unfold line at h
  split at h
  · next found =>
    cases h
    exact hm.length_row _ (List.mem_of_getElem? found)
  · cases h

theorem WellFormed.withLine {m : Mat} (hm : m.WellFormed) (i : Nat) {row : Vec}
    (h : row.length = m.cols) : (m.withLine i row).WellFormed := by
  refine ⟨(List.length_set ..).trans hm.length_data, fun r hr => ?_⟩
  rcases List.mem_or_eq_of_mem_set hr with hmem | rfl
  · exact hm.length_row r hmem
  · exact h

/-- Replacing an entry keeps the dimensions. -/
theorem WellFormed.of_set {m n : Mat} {i j : Nat} {x : Fraction} (hm : m.WellFormed)
    (h : m.set i j x = .ok n) : n.WellFormed ∧ n.rows = m.rows ∧ n.cols = m.cols := by
  obtain ⟨-, -, h⟩ := bind_eq_ok_iff.1 h
  obtain ⟨-, -, h⟩ := bind_eq_ok_iff.1 h
  obtain ⟨row, hrow, h⟩ := bind_eq_ok_iff.1 h
  obtain ⟨changed, hset, h⟩ := bind_eq_ok_iff.1 h
  cases h
  refine ⟨hm.withLine i ?_, rfl, rfl⟩
  unfold Vec.setEntry at hset
  split at hset
  · cases hset
    rw [List.length_set, hm.length_of_line hrow]
  · cases hset

theorem WellFormed.of_setRow {m n : Mat} {i : Nat} {row old : Vec} (hm : m.WellFormed)
    (h : m.setRow i row = .ok (old, n)) :
    n.WellFormed ∧ n.rows = m.rows ∧ n.cols = m.cols := by
  obtain ⟨-, -, h⟩ := bind_eq_ok_iff.1 h
  obtain ⟨_, hdims, h⟩ := bind_eq_ok_iff.1 h
  obtain ⟨_, _, h⟩ := bind_eq_ok_iff.1 h
  cases h
  exact ⟨hm.withLine i (checkDims_eq_ok_iff.1 hdims).symm, rfl, rfl⟩

/-- Rows of the right number and length make a matrix of the same dimensions, whatever the rows
before were. -/
theorem wellFormed_of_replaceRows {m n : Mat} {data old : List Vec}
    (h : m.replaceRows data = .ok (old, n)) :
    n.WellFormed ∧ n.rows = m.rows ∧ n.cols = m.cols := by
  obtain ⟨_, hdims, h⟩ := bind_eq_ok_iff.1 h
  obtain ⟨_, hrows, h⟩ := bind_eq_ok_iff.1 h
  cases h
  exact ⟨⟨(checkDims_eq_ok_iff.1 hdims).symm, fun row hrow =>
    (checkDims_eq_ok_iff.1 (forM_eq_ok_iff.1 hrows row hrow)).symm⟩, rfl, rfl⟩

/-! ## Products and arrangements -/

theorem wellFormed_transposed (m : Mat) (hm : m.data.length = m.rows) :
    m.transposed.WellFormed := by
  refine ⟨by simp [transposed], fun row hrow => ?_⟩
  obtain ⟨j, -, rfl⟩ := List.mem_map.1 hrow
  exact (List.length_map _).trans hm

theorem length_of_mulVec {m : Mat} {v u : Vec} (hm : m.WellFormed) (h : m.mulVec v = .ok u) :
    v.length = m.cols ∧ u.length = m.rows := by
  obtain ⟨_, hdims, h⟩ := bind_eq_ok_iff.1 h
  exact ⟨(checkDims_eq_ok_iff.1 hdims).symm, (length_of_mapM h).trans hm.length_data⟩

theorem WellFormed.of_mul {m n p : Mat} (hm : m.WellFormed) (h : m.mul n = .ok p) :
    p.WellFormed ∧ p.rows = m.rows ∧ p.cols = n.cols := by
  obtain ⟨-, -, h⟩ := bind_eq_ok_iff.1 h
  obtain ⟨data, hdata, h⟩ := bind_eq_ok_iff.1 h
  cases h
  refine ⟨⟨(length_of_mapM hdata).trans hm.length_data, fun row hrow => ?_⟩, rfl, rfl⟩
  obtain ⟨_, _, hdots⟩ := exists_of_mem_mapM hdata hrow
  rw [length_of_mapM hdots, List.length_map, List.length_range]

theorem WellFormed.of_hstack {m n p : Mat} (hm : m.WellFormed) (hn : n.WellFormed)
    (h : m.hstack n = .ok p) :
    p.WellFormed ∧ p.rows = m.rows ∧ p.cols = m.cols + n.cols := by
  obtain ⟨_, hdims, h⟩ := bind_eq_ok_iff.1 h
  cases h
  refine ⟨⟨?_, fun row hrow => ?_⟩, rfl, rfl⟩
  · rw [List.length_zipWith, hm.length_data, hn.length_data, ← checkDims_eq_ok_iff.1 hdims,
      Nat.min_self]
  · obtain ⟨i, hi, rfl⟩ := List.getElem_of_mem hrow
    rw [List.getElem_zipWith, List.length_append, hm.length_row _ (List.getElem_mem _),
      hn.length_row _ (List.getElem_mem _)]

end Mat

/-! ## Row operations -/

/-- A row operation keeps the dimensions. -/
theorem RowOp.wellFormed_of_apply {op : RowOp} {m n : Mat} (hm : m.WellFormed)
    (h : op.apply m = .ok n) : n.WellFormed ∧ n.rows = m.rows ∧ n.cols = m.cols := by
  cases op with
  | swap i j =>
    obtain ⟨upper, hupper, h⟩ := bind_eq_ok_iff.1 h
    obtain ⟨lower, hlower, h⟩ := bind_eq_ok_iff.1 h
    cases h
    exact ⟨(hm.withLine i (hm.length_of_line hlower)).withLine j (hm.length_of_line hupper),
      rfl, rfl⟩
  | scale factor i =>
    obtain ⟨row, hrow, h⟩ := bind_eq_ok_iff.1 h
    obtain ⟨scaled, hscaled, h⟩ := bind_eq_ok_iff.1 h
    cases h
    exact ⟨hm.withLine i ((Vec.length_of_scale hscaled).trans (hm.length_of_line hrow)),
      rfl, rfl⟩
  | addScaled factor source target =>
    obtain ⟨added, -, h⟩ := bind_eq_ok_iff.1 h
    obtain ⟨row, hrow, h⟩ := bind_eq_ok_iff.1 h
    obtain ⟨sum, hsum, h⟩ := bind_eq_ok_iff.1 h
    cases h
    exact ⟨hm.withLine target ((Vec.length_of_combine hsum).2.trans (hm.length_of_line hrow)),
      rfl, rfl⟩

end ExactLinAlg
