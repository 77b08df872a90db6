import DistCache.Storage.WAL

/-!
# What the text log can carry

A record comes back from the log as it was written exactly when its line can be read in one way
only: no blank in the operation or the key, no newline in the value, and no field missing in front
of one that is there (`Record.RoundTrips`). Such records are read back one by one
(`replayText_text`). That no other record survives needs no case analysis of what can go wrong:
*whatever* the reader returns satisfies the condition (`roundTrips_of_mem_replayText`), so malformed
records cannot make up for each other across lines either.
-/

namespace DistCache

open CharStream

/-- The records that a line can carry. -/
structure Record.RoundTrips (r : Record) : Prop where
  operation : Blankless r.operation
  key : Blankless r.key
  value : newline ∉ r.value
  value_of_key : r.key = [] → r.value = []
  key_of_operation : r.operation = [] → r.key = []

/-- The records the server writes: an operation and a key without blanks, a value without newlines.
-/
structure Record.WellFormed (r : Record) : Prop where
  operation_ne : r.operation ≠ []
  operation : Blankless r.operation
  key_ne : r.key ≠ []
  key : Blankless r.key
  value : newline ∉ r.value

instance (r : Record) : Decidable r.WellFormed :=
  decidable_of_iff (r.operation ≠ [] ∧ Blankless r.operation ∧ r.key ≠ [] ∧
      Blankless r.key ∧ newline ∉ r.value)
    ⟨fun ⟨h₁, h₂, h₃, h₄, h₅⟩ ↦ ⟨h₁, h₂, h₃, h₄, h₅⟩,
      fun ⟨h₁, h₂, h₃, h₄, h₅⟩ ↦ ⟨h₁, h₂, h₃, h₄, h₅⟩⟩

theorem Record.WellFormed.roundTrips {r : Record} (h : r.WellFormed) : r.RoundTrips :=
  ⟨h.operation, h.key, h.value, fun hk ↦ absurd hk h.key_ne, fun ho ↦ absurd ho h.operation_ne⟩

theorem Blankless.newline_notMem {l : Bytes} (h : Blankless l) : newline ∉ l := fun hmem ↦ by
  simpa using h newline hmem

theorem Blankless.mono {l l' : Bytes} (h : Blankless l) (hsub : l' ⊆ l) : Blankless l' :=
  fun c hc ↦ h c (hsub hc)

theorem Blankless.append {l l' : Bytes} (h : Blankless l) (h' : Blankless l') :
    Blankless (l ++ l') := fun c hc ↦ (List.mem_append.1 hc).elim (h c) (h' c)

/-- The parse of a line whose operation is complete. -/
theorem parseLine_operation {op : Bytes} (hne : op ≠ []) (hop : Blankless op)
    {rest : Bytes} (hrest : newline ∉ rest) :
    parseLine (op ++ space :: rest) =
      ⟨op, word isSpace rest, trimSpace (afterWord isSpace rest)⟩ := by
  have hn : newline ∉ op ++ space :: rest := by
    simp [hop.newline_notMem, hrest]
  rw [parseLine_eq hn, word_append_blank hop hne isSpace_space,
    afterWord_append_blank hop hne isSpace_space, word_cons_blank isSpace_space,
    afterWord_cons_blank isSpace_space]

theorem Record.RoundTrips.newline_notMem {r : Record} (h : r.RoundTrips) : newline ∉ r.line := by
  have hop := h.operation.newline_notMem
  have hkey := h.key.newline_notMem
  rw [Record.line]
  split
  · simp [hop, hkey]
  · simp [hop, hkey, h.value]

/-- Nor is there one behind the operation. -/
theorem Record.RoundTrips.newline_notMem_rest {r : Record} (h : r.RoundTrips) :
    newline ∉ r.key ++ if r.value.isEmpty then [] else space :: r.value := fun hmem ↦
  h.newline_notMem (r.line_eq ▸ List.mem_append_right _ (List.mem_cons_of_mem _ hmem))

/-- **The reader undoes the writer** on a line that can be read in one way only. -/
theorem parseLine_line {r : Record} (h : r.RoundTrips) : parseLine r.line = r := by
  have hrest := h.newline_notMem_rest
  obtain ⟨operation, key, value⟩ := r
  rcases eq_or_ne operation [] with rfl | hop
  · -- nothing but the separating space is left
    obtain rfl : key = [] := h.key_of_operation rfl
    obtain rfl : value = [] := h.value_of_key rfl
    decide
  · rw [Record.line_eq, parseLine_operation hop h.operation hrest]
    rcases eq_or_ne key [] with rfl | hkey
    · obtain rfl : value = [] := h.value_of_key rfl
      rfl
    · rcases eq_or_ne value [] with rfl | hvalue
      · simp [word_self h.key hkey, afterWord_self h.key hkey, trimSpace]
      · rw [if_neg (by simpa using hvalue), word_append_blank h.key hkey isSpace_space,
          afterWord_append_blank h.key hkey isSpace_space]
        rfl

theorem replayText_text {r : Record} (h : r.RoundTrips) : replayText r.text = [r] := by
  rw [Record.text, replayText_line h.newline_notMem r.line_ne_nil, parseLine_line h, replayText_nil]

/-- Nothing but such records comes out of a log, whatever its bytes are. -/
theorem roundTrips_of_mem_replayText {text : Bytes} {r : Record} (h : r ∈ replayText text) :
    r.RoundTrips := by
  obtain ⟨line, hline, rfl⟩ := List.mem_map.1 h
  have hn : newline ∉ line := notMem_of_mem_getlines (List.mem_of_mem_filter hline)
  have hrest : newline ∉ afterWord isSpace (afterWord isSpace line) := fun hmem ↦
    hn (afterWord_subset _ (afterWord_subset _ hmem))
  rw [parseLine_eq hn]
  refine ⟨fun c hc ↦ not_blank_of_mem_word hc, fun c hc ↦ not_blank_of_mem_word hc, ?_, ?_, ?_⟩
  · show newline ∉ trimSpace _
    rw [trimSpace]
    split
    · exact fun hmem ↦ hrest (List.mem_of_mem_tail hmem)
    · exact hrest
  · intro hkey
    show trimSpace _ = []
    rw [afterWord_eq_nil_of_word_eq_nil hkey]
    rfl
  · intro hop
    show word isSpace _ = []
    rw [afterWord_eq_nil_of_word_eq_nil hop, word_nil]

/-- A whole log of such records is read back. -/
theorem replayText_textOf_of_roundTrips {records : List Record}
    (h : ∀ r ∈ records, r.RoundTrips) : replayText (WAL.textOf records) = records := by
  induction records with
  | nil => rfl
  | cons r records ih =>
    rw [List.forall_mem_cons] at h
    have hrest := ih h.2
    rw [replayText_textOf] at hrest ⊢
    rw [List.flatMap_cons, replayText_text h.1, hrest]
    rfl

namespace WAL

/-- The records a log should hold after one more call. -/
def logged (records : List Record) : Call → List Record
  | .append operation key value => records ++ [⟨operation, key, value⟩]
  | .sync => records
  | .truncate => []

/-- The records appended since the last `truncate`. -/
def appended (calls : List Call) : List Record := calls.foldl logged []

/-- One call, as long as the file can be opened: the file is the text of the appended records. -/
theorem step_textOf {w : WAL} {records : List Record} (hopen : w.isOpen = true)
    (hopenable : w.openable = true) (hfile : w.file = textOf records) (c : Call) :
    ∃ w', w.step c = .ok w' ∧ w'.isOpen = true ∧ w'.openable = true ∧
      w'.file = textOf (logged records c) := by
  cases c with
  | append operation key value =>
    refine ⟨_, append_of_isOpen hopen ⟨operation, key, value⟩, hopen, hopenable, ?_⟩
    rw [logged, textOf_append, hfile]
    simp
  | sync => exact ⟨w, rfl, hopen, hopenable, hfile⟩
  | truncate => exact ⟨_, rfl, by simp [truncate, hopenable], by simp [truncate, hopenable],
      by simp [truncate, hopenable, logged]⟩

/-- The same along a run. -/
theorem run_textOf {w : WAL} {records : List Record} (hopen : w.isOpen = true)
    (hopenable : w.openable = true) (hfile : w.file = textOf records) (calls : List Call) :
    ∃ w', w.run calls = .ok w' ∧ w'.isOpen = true ∧ w'.openable = true ∧
      w'.file = textOf (calls.foldl logged records) := by
  induction calls generalizing w records with
  | nil => exact ⟨w, rfl, hopen, hopenable, hfile⟩
  | cons c calls ih =>
    obtain ⟨w₁, hw₁, hopen₁, hopenable₁, hfile₁⟩ := step_textOf hopen hopenable hfile c
    obtain ⟨w', hw', hrest⟩ := ih hopen₁ hopenable₁ hfile₁
    refine ⟨w', ?_, hrest⟩
    rw [run, List.foldlM_cons, hw₁]
    exact hw'

/-- **The round-trip domain of the log.** After any run of appends, syncs and truncations on a log
that starts empty, `replay` returns what was appended since the last truncation exactly when each
of those records can be carried by a line. -/
theorem replay_eq_appended_iff (filename : Bytes) (calls : List Call) :
    ∃ w₀ w, new filename [] true = .ok w₀ ∧ w₀.run calls = .ok w ∧
      (w.replay = appended calls ↔ ∀ r ∈ appended calls, r.RoundTrips) := by
  obtain ⟨w, hw, -, -, hfile⟩ :=
    run_textOf (w := ⟨filename, [], true, true⟩) rfl rfl textOf_nil.symm calls
  refine ⟨_, w, new_of_openable filename [], hw, ?_⟩
  rw [replay, hfile]
  constructor
  · intro heq r hr
    exact roundTrips_of_mem_replayText (heq ▸ hr)
  · exact replayText_textOf_of_roundTrips

end WAL

end DistCache
