import DistCache.Storage.WALRoundTrip

/-!
# A log that was cut off

A crash leaves a prefix of the file, and the restarted process goes on appending where that prefix
ends. The format has no length and no checksum, so a torn line is read like any other one, and what
is appended next becomes part of it.

`tornLine_cases` says where a line can be cut: in the operation, in the key or in the value. In none
of these cases does the torn line, continued by the next record, read as that record
(`parseLine_torn_append`); and on its own it reads as the record it was torn from only when nothing
but its newline is missing (`eq_line_of_parseLine_torn`). Hence `replayAfterCrash_iff`: the log
survives a crash unharmed exactly when the cut fell between two records, or took just the last
newline and nothing was appended since.
-/

namespace DistCache

open CharStream

/-! ### Where a line is cut -/

theorem Record.length_value_le (r : Record) :
    r.value.length ≤ (if r.value.isEmpty then [] else space :: r.value).length := by
  split
  · next h => rw [List.isEmpty_iff.1 h]
  · simp

/-- **Where the cut falls**: in the operation, in the key, or in the value. -/
theorem tornLine_cases {r : Record} {torn : Bytes} (h : torn <+: r.line) :
    torn <+: r.operation ∨
      (∃ k, k <+: r.key ∧ torn = r.operation ++ space :: k) ∨
      ∃ v, v <+: r.value ∧ r.value ≠ [] ∧ torn = r.operation ++ space :: (r.key ++ space :: v) := by
  rw [r.line_eq] at h
  rcases prefix_append_cases h with hop | ⟨t, ht, rfl⟩
  · exact Or.inl hop
  · rcases List.prefix_cons_iff.1 ht with rfl | ⟨k, rfl, hk⟩
    · exact Or.inl (by simp)
    · right
      rcases prefix_append_cases hk with hkey | ⟨u, hu, rfl⟩
      · exact Or.inl ⟨k, hkey, rfl⟩
      · rcases hv : r.value.isEmpty with - | -
        · rw [hv, if_neg Bool.false_ne_true, List.prefix_cons_iff] at hu
          rcases hu with rfl | ⟨v, rfl, hv'⟩
          · exact Or.inl ⟨r.key, List.prefix_refl _, by rw [List.append_nil]⟩
          · exact Or.inr ⟨v, hv', by simpa using hv, rfl⟩
        · rw [hv, if_pos rfl, List.prefix_nil] at hu
          exact Or.inl ⟨r.key, List.prefix_refl _, by rw [hu, List.append_nil]⟩

section Torn

variable {r : Record} {torn : Bytes} (hr : r.WellFormed) (htorn : torn <+: r.line)

include hr htorn

theorem newline_notMem_torn : newline ∉ torn := fun h ↦
  hr.roundTrips.newline_notMem (htorn.subset h)

/-- **A torn line on its own** reads as the record it was torn from only when nothing is missing. -/
theorem eq_line_of_parseLine_torn (h : parseLine torn = r) : torn = r.line := by
  have hn := newline_notMem_torn hr htorn
  rcases tornLine_cases htorn with hop | ⟨k, hk, rfl⟩ | ⟨v, hv, hvne, rfl⟩
  · -- cut in the operation: there is no key
    have hblank : Blankless torn := hr.operation.mono hop.subset
    have hafter : afterWord isSpace torn = [] := by
      rcases eq_or_ne torn [] with rfl | hne
      · exact afterWord_nil
      · exact afterWord_self hblank hne
    rw [parseLine_eq hn, hafter] at h
    exact absurd (congrArg Record.key h).symm hr.key_ne
  · -- cut in the key: the key read is the torn one, and no value follows
    have hblank : Blankless k := hr.key.mono hk.subset
    rw [parseLine_operation hr.operation_ne hr.operation hblank.newline_notMem] at h
    have hkey : word isSpace k = r.key := congrArg Record.key h
    have hvalue : trimSpace (afterWord isSpace k) = r.value := congrArg Record.value h
    have hkne : k ≠ [] := fun hnil ↦ hr.key_ne (by rw [← hkey, hnil, word_nil])
    rw [word_self hblank hkne] at hkey
    rw [afterWord_self hblank hkne] at hvalue
    have hnil : r.value = [] := hvalue.symm
    rw [r.line_eq, hnil, hkey]
    simp
  · -- cut in the value: the value read is the torn one
    have hrest : newline ∉ r.key ++ space :: v := fun hmem ↦
      hn (List.mem_append_right _ (List.mem_cons_of_mem _ hmem))
    rw [parseLine_operation hr.operation_ne hr.operation hrest,
      afterWord_append_blank hr.key hr.key_ne isSpace_space] at h
    have hvalue : v = r.value := congrArg Record.value h
    rw [r.line_eq, hvalue, if_neg (by simpa using hvne)]

/-- **A torn line continued by the next record** never reads as that record. -/
theorem parseLine_torn_append (hne : torn ≠ []) {r' : Record} (hr' : r'.WellFormed) :
    parseLine (torn ++ r'.line) ≠ r' := by
  have hn := newline_notMem_torn hr htorn
  have hn' := hr'.roundTrips.newline_notMem
  have hlen := r'.length_value_le
  have hkeypos := List.length_pos_of_ne_nil hr'.key_ne
  intro h
  rcases tornLine_cases htorn with hop | ⟨k, hk, rfl⟩ | ⟨v, hv, -, rfl⟩
  · -- cut in the operation: the two operations run together
    have hblank : Blankless (torn ++ r'.operation) :=
      (hr.operation.mono hop.subset).append hr'.operation
    rw [r'.line_eq, ← List.append_assoc,
      parseLine_operation (by simp [hne]) hblank hr'.roundTrips.newline_notMem_rest] at h
    have hoperation : torn ++ r'.operation = r'.operation := congrArg Record.operation h
    exact hne (List.append_left_eq_self.1 hoperation)
  · -- cut in the key: the next operation ends up in it, and the next key in the value
    have hblank : Blankless (k ++ r'.operation) := (hr.key.mono hk.subset).append hr'.operation
    have hrest : newline ∉ k ++ r'.line :=
      List.not_mem_append (hr.key.mono hk.subset).newline_notMem hn'
    rw [List.append_assoc, List.cons_append,
      parseLine_operation hr.operation_ne hr.operation hrest, r'.line_eq, ← List.append_assoc,
      afterWord_append_blank hblank (by simp [hr'.operation_ne]) isSpace_space] at h
    have hvalue : (r'.key ++ if r'.value.isEmpty then [] else space :: r'.value) = r'.value :=
      congrArg Record.value h
    have := congrArg List.length hvalue
    rw [List.length_append] at this
    omega
  · -- cut in the value: the whole next line ends up in it
    have hrest : newline ∉ (r.key ++ space :: v) ++ r'.line := by
      refine List.not_mem_append (fun hmem ↦ hn ?_) hn'
      exact List.mem_append_right _ (List.mem_cons_of_mem _ hmem)
    rw [List.append_assoc, List.cons_append,
      parseLine_operation hr.operation_ne hr.operation hrest, List.append_assoc, List.cons_append,
      afterWord_append_blank hr.key hr.key_ne isSpace_space] at h
    have hvalue : v ++ r'.line = r'.value := congrArg Record.value h
    have := congrArg List.length hvalue
    rw [r'.line_eq, List.length_append, List.length_append, List.length_cons,
      List.length_append] at this
    omega

end Torn

/-! ### Where a file is cut -/

/-- A cut file is some whole records, followed by nothing or by a torn line of the next one. -/
theorem prefix_textOf {records : List Record} {P : Bytes} (h : P <+: WAL.textOf records) :
    (∃ kept, kept <+: records ∧ P = WAL.textOf kept) ∨
      ∃ kept r torn, kept ++ [r] <+: records ∧ torn <+: r.line ∧ torn ≠ [] ∧
        P = WAL.textOf kept ++ torn := prefix_flatMap_concat h

/-- Whole records at the front of a file are replayed first. -/
theorem replayText_textOf_append_of_wellFormed {records : List Record}
    (h : ∀ r ∈ records, r.WellFormed) (b : Bytes) :
    replayText (WAL.textOf records ++ b) = records ++ replayText b := by
  rw [replayText_textOf_append, ← replayText_textOf,
    replayText_textOf_of_roundTrips fun r hr ↦ (h r hr).roundTrips]

/-- The same, with the log continued behind a torn line. -/
theorem replayText_torn {kept : List Record} (hkept : ∀ r ∈ kept, r.WellFormed) {r : Record}
    (hr : r.WellFormed) {torn : Bytes} (htorn : torn <+: r.line) (hne : torn ≠ []) :
    replayText (WAL.textOf kept ++ torn) = kept ++ [parseLine torn] ∧
      ∀ r' after, r'.WellFormed → (∀ r'' ∈ after, r''.WellFormed) →
        replayText (WAL.textOf kept ++ torn ++ WAL.textOf (r' :: after)) =
          kept ++ parseLine (torn ++ r'.line) :: after := by
  have hn := newline_notMem_torn hr htorn
  constructor
  · rw [replayText_textOf_append_of_wellFormed hkept, replayText_of_notMem hn hne]
  · intro r' after hr' hafter
    have hline : newline ∉ torn ++ r'.line :=
      List.not_mem_append hn hr'.roundTrips.newline_notMem
    have hfile : torn ++ WAL.textOf (r' :: after) =
        (torn ++ r'.line) ++ newline :: WAL.textOf after := by
      simp [Record.text]
    rw [List.append_assoc, replayText_textOf_append_of_wellFormed hkept, hfile,
      replayText_line hline (by simp [hne]),
      replayText_textOf_of_roundTrips fun r hr ↦ (hafter r hr).roundTrips]

namespace WAL

/-- A run with a crash in it: `before` is appended, the crash leaves the first `cut` bytes of the
file, the restarted process appends `after`, and the log is replayed. -/
def replayAfterCrash (filename : Bytes) (before : List Record) (cut : ℕ) (after : List Record) :
    Except Bytes (List Record) := do
  let w ← new filename [] true
  let w ← w.run (appends before)
  let w ← new filename (w.file.take cut) true
  let w ← w.run (appends after)
  .ok w.replay

/-- The bytes `P` are those of whole records. -/
def EndsARecord (before : List Record) (P : Bytes) : Prop :=
  ∃ kept, kept <+: before ∧ P = textOf kept

theorem replayAfterCrash_eq (filename : Bytes) (before : List Record) (cut : ℕ)
    (after : List Record) : replayAfterCrash filename before cut after =
      .ok (replayText ((textOf before).take cut ++ textOf after)) := by
  have h₁ := run_appends (w := ⟨filename, [], true, true⟩) rfl before
  have h₂ := run_appends (w := ⟨filename, (textOf before).take cut, true, true⟩) rfl after
  show (run ⟨filename, [], true, true⟩ (appends before)).bind (fun w ↦
    (run ⟨filename, w.file.take cut, true, true⟩ (appends after)).bind fun w ↦ .ok w.replay) = _
  rw [h₁]
  show (run ⟨filename, (textOf before).take cut, true, true⟩ (appends after)).bind
    (fun w ↦ .ok w.replay) = _
  rw [h₂]
  rfl

/-- A file that lacks the newline of its last record. -/
theorem EndsARecord.of_newline {before : List Record} {P : Bytes}
    (h : EndsARecord before (P ++ [newline])) :
    ∃ kept r, kept ++ [r] <+: before ∧ P = textOf kept ++ r.line := by
  obtain ⟨kept, hkept, hP⟩ := h
  rcases List.eq_nil_or_concat kept with rfl | ⟨kept, r, rfl⟩
  · simp at hP
  · rw [List.concat_eq_append] at hP hkept
    have htext : textOf (kept ++ [r]) = (textOf kept ++ r.line) ++ [newline] := by
      simp [textOf_append, Record.text]
    exact ⟨kept, r, hkept, List.append_cancel_right (hP.trans htext)⟩

/-- **What survives a crash.** Replay returns some of the records appended before the crash, and
then exactly those appended after it, if and only if the cut fell between two records, or it took
the newline of the last record that is left and nothing was appended since. -/
theorem replayAfterCrash_iff (filename : Bytes) (before : List Record) (cut : ℕ)
    (after : List Record) (hbefore : ∀ r ∈ before, r.WellFormed)
    (hafter : ∀ r ∈ after, r.WellFormed) :
    (∃ kept, kept <+: before ∧
        replayAfterCrash filename before cut after = .ok (kept ++ after)) ↔
      EndsARecord before ((textOf before).take cut) ∨
        after = [] ∧ EndsARecord before ((textOf before).take cut ++ [newline]) := by
  have hwf : ∀ {kept}, kept <+: before → ∀ r ∈ kept, r.WellFormed := fun hkept r hr ↦
    hbefore r (hkept.subset hr)
  simp only [replayAfterCrash_eq, Except.ok.injEq]
  constructor
  · rintro ⟨kept, hkept, heq⟩
    rcases prefix_textOf (List.take_prefix cut (textOf before)) with
      hwhole | ⟨kept₀, r, torn, hkept₀, htorn, hne, hP⟩
    · exact Or.inl hwhole
    · have hr : r.WellFormed := hwf hkept₀ r (by simp)
      have hfront : ∀ r ∈ kept₀, r.WellFormed := fun r hr ↦ hwf hkept₀ r (by simp [hr])
      obtain ⟨hnil, hcons⟩ := replayText_torn hfront hr htorn hne
      rw [hP] at heq ⊢
      cases after with
      | nil =>
        -- the torn line is replayed in the place of the record it was torn from
        rw [textOf_nil, List.append_nil, hnil, List.append_nil] at heq
        have hlen : (kept₀ ++ [r]).length = kept.length := by simp [← heq]
        have hsame : kept₀ ++ [r] = kept₀ ++ [parseLine torn] :=
          ((List.prefix_of_prefix_length_le hkept₀ hkept hlen.le).eq_of_length hlen).trans heq.symm
        have hparse : parseLine torn = r := by simpa using hsame.symm
        refine Or.inr ⟨rfl, kept₀ ++ [r], hkept₀, ?_⟩
        rw [eq_line_of_parseLine_torn hr htorn hparse, textOf_append]
        simp [Record.text]
      | cons r' after =>
        -- the first record after the restart would have to survive behind the torn line
        rw [List.forall_mem_cons] at hafter
        rw [hcons r' after hafter.1 hafter.2] at heq
        have hlen := congrArg List.length heq
        simp only [List.length_append, List.length_cons] at hlen
        have htail := (List.append_inj heq (by omega)).2
        exact absurd (List.cons.inj htail).1 (parseLine_torn_append hr htorn hne hafter.1)
  · rintro (⟨kept, hkept, hP⟩ | ⟨rfl, hP⟩)
    · refine ⟨kept, hkept, ?_⟩
      rw [hP, replayText_textOf_append_of_wellFormed (hwf hkept),
        replayText_textOf_of_roundTrips fun r hr ↦ (hafter r hr).roundTrips]
    · obtain ⟨kept, r, hkept, hfile⟩ := hP.of_newline
      have hfront : ∀ r ∈ kept, r.WellFormed := fun r hr ↦ hwf hkept r (by simp [hr])
      have hr : r.WellFormed := hwf hkept r (by simp)
      refine ⟨kept ++ [r], hkept, ?_⟩
      rw [hfile, textOf_nil, List.append_nil, List.append_nil,
        replayText_textOf_append_of_wellFormed hfront,
        replayText_of_notMem hr.roundTrips.newline_notMem r.line_ne_nil,
        parseLine_line hr.roundTrips]

/-- The cut behind the first of two records, and one record appended after the restart. -/
theorem replayAfterCrash_iff_six :
    ∃ kept, kept <+: [(⟨bytes ['S', 'E', 'T'], [1], []⟩ : Record), ⟨[68], [2], []⟩] ∧
      replayAfterCrash [] [⟨bytes ['S', 'E', 'T'], [1], []⟩, ⟨[68], [2], []⟩] 6
        [⟨[68], [3], [4]⟩] = .ok (kept ++ [⟨[68], [3], [4]⟩]) :=
  (replayAfterCrash_iff [] [⟨bytes ['S', 'E', 'T'], [1], []⟩, ⟨[68], [2], []⟩] 6 [⟨[68], [3], [4]⟩]
    (by decide) (by decide)).2
    (Or.inl ⟨[⟨bytes ['S', 'E', 'T'], [1], []⟩], by decide, by decide⟩)

/-- **A torn deletion deletes another key.** Cut before its last digit, `DEL key10` is replayed as
`DEL key1`. -/
theorem replayAfterCrash_torn :
    Record.WellFormed ⟨bytes ['D', 'E', 'L'], bytes ['k', 'e', 'y', '1', '0'], []⟩ ∧
      ¬ ∃ kept, kept <+: [⟨bytes ['D', 'E', 'L'], bytes ['k', 'e', 'y', '1', '0'], []⟩] ∧
        replayAfterCrash [] [⟨bytes ['D', 'E', 'L'], bytes ['k', 'e', 'y', '1', '0'], []⟩] 8 [] =
          .ok (kept ++ []) := by
  refine ⟨by decide, ?_⟩
  rintro ⟨kept, hkept, h⟩
  have hrun : replayAfterCrash [] [⟨bytes ['D', 'E', 'L'], bytes ['k', 'e', 'y', '1', '0'], []⟩] 8
      [] = .ok [⟨bytes ['D', 'E', 'L'], bytes ['k', 'e', 'y', '1'], []⟩] := rfl
  rw [hrun, List.append_nil, Except.ok.injEq] at h
  subst h
  exact absurd (hkept.subset (List.mem_singleton_self _)) (by decide)

end WAL

end DistCache
