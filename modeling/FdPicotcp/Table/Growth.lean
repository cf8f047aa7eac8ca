import FdPicotcp.Table.FdTable

/-! Where does `fd_elem_create` put a descriptor?

    The kernel hands out descriptors by what the whole process has open; the table doubles once. A
    pair beyond the doubled size is then used as an index all the same. -/

namespace FdPicotcp.Growth
open CInt FdTable

variable {σ : Type}

/-- All five allocations before the table is looked at succeed. -/
def Allocated (alloc : Alloc) : Prop :=
  alloc.elem ∧ (alloc.acceptSem ∧ alloc.readSem) ∧ alloc.initAccept ∧ alloc.initRead

/-- The call gets as far as a larger table. -/
def Grows (g : Globals σ) (alloc : Alloc) (fd : ℤ × ℤ) : Prop :=
  Allocated alloc ∧ (g.fdTableSize ≤ fd.1 ∨ g.fdTableSize ≤ fd.2) ∧
    toInt32 (2 * g.fdTableSize) ≤ g.maxFd ∧ alloc.table ∧ 0 < toInt32 (2 * g.fdTableSize)

/-- The call returns -1 and leaves every slot, or returns the key with both ends inside the table;
    it touches no slot outside. -/
def InRange (g : Globals σ) (fd : ℤ × ℤ) : Except Fault (ℤ × Globals σ) → Prop
  | .error _ => False
  | .ok (ret, g') => (ret = -1 ∧ ∀ i, InTable g i → slot g' i = slot g i) ∨
    (ret = fd.1 ∧ fd.1 < g'.fdTableSize ∧ fd.2 < g'.fdTableSize)

/-- A refusal that only sets `fd_err`. -/
theorem inRange_fail (g : Globals σ) (fd : ℤ × ℤ) (e : FdErr) : InRange g fd (.ok (-1, g.fail e)) :=
  .inl ⟨rfl, fun _ _ => rfl⟩

theorem inRange_refuse (g : Globals σ) (fd : ℤ × ℤ) : InRange g fd (.ok (-1, g)) :=
  .inl ⟨rfl, fun _ _ => rfl⟩

/-- Once everything before it is allocated, the call is a test, a growth if need be, and the
    insertion. -/
theorem fdElemCreate_of_allocated {alloc : Alloc} (h : Allocated alloc) (g : Globals σ) (fd : ℤ × ℤ)
    (s : σ) : fdElemCreate g alloc fd s =
      if g.fdTableSize ≤ fd.1 ∨ g.fdTableSize ≤ fd.2 then
        if g.maxFd < toInt32 (2 * g.fdTableSize) then .ok (-1, g.fail .tableMaxSizeReached)
        else growTable g alloc.table >>= fun
          | none => .ok (-1, g)
          | some g => insertElem g ⟨fd, 0, 0, 0, 0, 0, s⟩
      else insertElem g ⟨fd, 0, 0, 0, 0, 0, s⟩ := by
  obtain ⟨helem, ⟨hacc, hread⟩, hia, hir⟩ := h
  rw [fdElemCreate, if_neg (by simp [helem]), if_neg (by simp [hacc, hread])]
  exact if_neg (by simp [hia, hir])

/-- A failed allocation: the call returns -1, and at most `fd_err` changes. -/
theorem fdElemCreate_refused {alloc : Alloc} (h : ¬ Allocated alloc) (g : Globals σ) (fd : ℤ × ℤ)
    (s : σ) : fdElemCreate g alloc fd s = .ok (-1, g) ∨
      ∃ e ≠ .ok, fdElemCreate g alloc fd s = .ok (-1, g.fail e) := by
  rw [fdElemCreate]
  by_cases helem : alloc.elem = true
  · by_cases hsem : alloc.acceptSem = true ∧ alloc.readSem = true
    · by_cases hinit : alloc.initAccept = true ∧ alloc.initRead = true
      · exact absurd ⟨helem, hsem, hinit⟩ h
      · rw [if_neg (by simp [helem]), if_neg (by simp [hsem]), if_pos (not_and_or.mp hinit)]
        exact .inl rfl
    · rw [if_neg (by simp [helem]), if_pos (not_and_or.mp hsem)]
      exact .inr ⟨_, by simp, rfl⟩
  · rw [if_pos helem]
    exact .inr ⟨_, by simp, rfl⟩

/-- A call that does not get what it asks for leaves the table. -/
theorem fdElemCreate_of_not_allocated {g g' : Globals σ} {alloc : Alloc} {fd : ℤ × ℤ} {s : σ} {ret : ℤ}
    (hno : ¬ Allocated alloc) (h : fdElemCreate g alloc fd s = .ok (ret, g')) :
    ret = -1 ∧ g'.fdTable = g.fdTable := by
  rcases fdElemCreate_refused hno g fd s with hr | ⟨e, -, hr⟩
  · rw [hr] at h
    cases h
    exact ⟨rfl, rfl⟩
  · rw [hr] at h
    cases h
    exact ⟨rfl, rfl⟩

theorem inRange_of_not_allocated {alloc : Alloc} (h : ¬ Allocated alloc) (g : Globals σ)
    (fd : ℤ × ℤ) (s : σ) : InRange g fd (fdElemCreate g alloc fd s) := by
  rcases fdElemCreate_refused h g fd s with hr | ⟨e, -, hr⟩
  · rw [hr]
    exact inRange_refuse g fd
  · rw [hr]
    exact inRange_fail g fd e

/-- An insertion at a key inside the table. -/
theorem inRange_insertElem {g g' : Globals σ} {l : FdElem σ} (h : InTable g' l.fd.1)
    (h0 : 0 ≤ l.fd.1) (hkeep : ∀ i, InTable g i → slot g' i = slot g i) :
    InRange g l.fd (insertElem g' l) ↔ Live g' l.fd.1 ∨ l.fd.2 < g'.fdTableSize := by
  rcases insertElem_spec h with ⟨hlive, hrefused⟩ | ⟨hfree, g'', hstored, hset⟩
  · rw [hrefused]
    exact iff_of_true (.inl ⟨rfl, hkeep⟩) (.inl hlive)
  · obtain ⟨u, hu, hsize, -⟩ := setSlot_spec h (some l)
    rw [hset, Except.ok.injEq] at hu
    subst hu
    rw [hstored, InRange, hsize, or_iff_right hfree]
    constructor
    · rintro (⟨hneg, -⟩ | ⟨-, -, hb⟩)
      · omega
      · exact hb
    · exact fun hb => .inr ⟨rfl, h.2.2, hb⟩

/-- A growth makes no key live. -/
theorem growTable_live {g g' : Globals σ} {ok : Bool} (h : growTable g ok = .ok (some g')) (i : ℤ) :
    Live g' i ↔ Live g i := by
  simp only [Live, ← entry_eq_some, growTable_entry h]

/-- The new array is not allocated, or it is the growth. -/
theorem growTable_cases {g : Globals σ} (ht : g.fdTable.isSome) (ok : Bool) :
    (growTable g ok = .ok none ∧ ¬ (ok ∧ 0 < toInt32 (2 * g.fdTableSize))) ∨
      ∃ g', growTable g ok = .ok (some g') ∧ ok ∧ 0 < toInt32 (2 * g.fdTableSize) := by
  rw [growTable.eq_def]
  simp only
  split
  · next hok =>
    split
    · next hnone => rw [hnone] at ht; cases ht
    · exact .inr ⟨_, rfl, hok⟩
  · next hok => exact .inl ⟨rfl, hok⟩

/-- AN INSERT IS IN RANGE exactly if the call does not grow the table, or the doubled table holds
    the key and, where the key is free, the write end. -/
theorem create_in_range_iff {g : Globals σ} (ht : g.fdTable.isSome) (alloc : Alloc) {fd : ℤ × ℤ}
    (h0 : 0 ≤ fd.1) (s : σ) : InRange g fd (fdElemCreate g alloc fd s) ↔
      ¬ (Grows g alloc fd ∧
        (2 * g.fdTableSize ≤ fd.1 ∨ (2 * g.fdTableSize ≤ fd.2 ∧ ¬ Live g fd.1))) := by
  by_cases halloc : Allocated alloc
  · rw [fdElemCreate_of_allocated halloc]
    by_cases hout : g.fdTableSize ≤ fd.1 ∨ g.fdTableSize ≤ fd.2
    · rw [if_pos hout]
      by_cases hmax : g.maxFd < toInt32 (2 * g.fdTableSize)
      · rw [if_pos hmax]
        exact iff_of_true (inRange_fail g fd _) fun hg => absurd hg.1.2.2.1 (not_le.mpr hmax)
      · rw [if_neg hmax]
        rcases growTable_cases ht alloc.table with ⟨hnone, hno⟩ | ⟨g', hgrow, hok⟩
        · rw [hnone]
          exact iff_of_true (inRange_refuse g fd) fun hg => hno hg.1.2.2.2
        · have hgrows : Grows g alloc fd := ⟨halloc, hout, not_lt.mp hmax, hok⟩
          obtain ⟨hsize, hsome, -, hold, -⟩ := growTable_spec hgrow
          rw [hgrow, and_iff_right hgrows]
          change InRange g fd (insertElem g' ⟨fd, 0, 0, 0, 0, 0, s⟩) ↔ _
          by_cases ha : 2 * g.fdTableSize ≤ fd.1
          · obtain ⟨f, hf⟩ := insertElem_fault (g := g') (l := ⟨fd, 0, 0, 0, 0, 0, s⟩)
              fun hin => by have := hin.2.2; simp only at this; omega
            rw [hf]
            exact iff_of_false id fun hno => hno (.inl ha)
          · have hin : InTable g' fd.1 := ⟨hsome, h0, by omega⟩
            have hiff := inRange_insertElem (g := g) (l := ⟨fd, 0, 0, 0, 0, 0, s⟩) hin h0
              fun i hi => hold i hi.2.2
            rw [hiff]
            simp only [growTable_live hgrow, hsize]
            rw [or_iff_right ha, not_and, not_not, ← not_lt]
            exact or_comm.trans or_iff_not_imp_left
    · rw [if_neg hout]
      rw [not_or, not_le, not_le] at hout
      have hiff := inRange_insertElem (g := g) (l := ⟨fd, 0, 0, 0, 0, 0, s⟩) ⟨ht, h0, hout.1⟩ h0
        fun _ _ => rfl
      exact iff_of_true (hiff.mpr (.inr hout.2)) fun hg =>
        hg.1.2.1.elim (not_le.mpr hout.1) (not_le.mpr hout.2)
  · exact iff_of_true (inRange_of_not_allocated halloc g fd s) fun hg => halloc hg.1.1

/-- In a process with a hundred open files the first `socket()` indexes far outside its table. -/
theorem first_insert_out_of_range : ¬ ∀ (alloc : Alloc) (fd : ℤ × ℤ) (s : ℕ), 0 ≤ fd.1 → 0 ≤ fd.2 →
    fd.1 ≠ fd.2 → fd.1 < 1024 → fd.2 < 1024 →
    InRange initial fd (fdElemCreate initial alloc fd s) := by
  intro h
  have hr := h .all (100, 101) 0 (by decide) (by decide) (by decide) (by decide) (by decide)
  have hfault : fdElemCreate initial .all (100, 101) 0 = .error (.outOfRange 100) := by
    decide +kernel
  rw [hfault] at hr
  exact hr

/-- Descriptors 7 and 8 make the table grow to 16 slots and fit. -/
theorem create_in_range_grown : InRange initial (7, 8) (fdElemCreate initial .all (7, 8) 0) :=
  (create_in_range_iff rfl .all (by decide) 0).mpr fun h => absurd h.2 (by decide +kernel)

end FdPicotcp.Growth
