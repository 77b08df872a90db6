import DistCache.Storage.MMapPersistence

/-!
# A snapshot that was cut off

`snapshot` overwrites the file in place: opening it truncates it, and then the bytes of the lines
follow one another. Nothing keeps the old contents, so from the first effect on the old map is gone,
and what a stop leaves behind is a beginning of the new one.

The format decides what such a beginning is read as (`salvaged_of_prefix`). Whole lines are the
entries they were written for. The line in which the stop fell is skipped if it was cut in front of
its space, and else it is an entry with a whole key and a torn value (`IsTornValue`): a prefix of
the value, or, when an escape was cut in half, a prefix and a backslash that was never there.

A snapshot that throws leaves more behind (`Remains`), because the buffer that could not be written
is written again when the stream is closed. It starts in the middle of a line, so wherever it was
started again two pieces of lines meet in one, whose key may be one that the map does not have. All
the other lines are still lines of the map, whole or torn (`Remains.salvagedBut`).
-/

namespace DistCache

open CharStream

/-! ### Torn values -/

/-- What a value that was cut off is read as. -/
def IsTornValue (value torn : Bytes) : Prop :=
  torn <+: value ∨
    ∃ u c, u ++ [c] <+: value ∧ escapeLetter c ≠ none ∧ torn = u ++ [backslash]

theorem IsTornValue.cons {value torn : Bytes} (h : IsTornValue value torn) (c : UInt8) :
    IsTornValue (c :: value) (c :: torn) := by
  rcases h with h | ⟨u, d, hu, hd, rfl⟩
  · exact Or.inl (List.cons_prefix_cons.2 ⟨rfl, h⟩)
  · exact Or.inr ⟨c :: u, d, List.cons_prefix_cons.2 ⟨rfl, hu⟩, hd, rfl⟩

/-- **A cut escape code** reads as a torn value. -/
theorem isTornValue_unescapeString {value t : Bytes} (h : t <+: escapeString value) :
    IsTornValue value (unescapeString t) := by
  induction value generalizing t with
  | nil =>
    obtain rfl : t = [] := List.prefix_nil.1 h
    exact Or.inl List.nil_prefix
  | cons c value ih =>
    rw [escapeString] at h
    rcases hc : escapeLetter c with - | letter
    · rw [hc] at h
      rcases List.prefix_cons_iff.1 h with rfl | ⟨t', rfl, ht⟩
      · exact Or.inl List.nil_prefix
      · rw [unescapeString_cons_of_ne (ne_of_escapeLetter_eq_none hc).2.2]
        exact (ih ht).cons c
    · rw [hc] at h
      rcases List.prefix_cons_iff.1 h with rfl | ⟨t₁, rfl, ht₁⟩
      · exact Or.inl List.nil_prefix
      · rcases List.prefix_cons_iff.1 ht₁ with rfl | ⟨t₂, rfl, ht₂⟩
        · -- cut behind the backslash
          exact Or.inr ⟨[], c, List.cons_prefix_cons.2 ⟨rfl, List.nil_prefix⟩, by simp [hc], rfl⟩
        · rw [unescapeString_backslash_cons (unescapeLetter_of_escapeLetter hc)]
          exact (ih ht₂).cons c

namespace MMapPersistence

/-! ### What a torn file is read as -/

/-- What can be loaded of an unfinished snapshot of `data`: its first entries in the order of the
iteration, and possibly one more with a torn value. -/
def Salvaged (data d : Data) : Prop :=
  (∃ kept, kept <+: data.entries ∧ d.entries.Perm kept) ∨
    ∃ kept e torn, kept ++ [e] <+: data.entries ∧ IsTornValue e.2 torn ∧
      d.entries.Perm (kept ++ [⟨e.1, torn⟩])

/-- A torn line is skipped, or is an entry with a torn value. -/
theorem loadLine_torn {e : Σ _ : Bytes, Bytes} {t : Bytes} (h : t <+: entryLine e) (data : Data) :
    loadLine data t = data ∨
      ∃ torn, IsTornValue e.2 torn ∧ loadLine data t = data.insert e.1 torn := by
  have hskip : ∀ {u : Bytes}, u <+: escapeString e.1 → loadLine data u = data := fun {u} hu ↦ by
    have hn : space ∉ u := fun hmem ↦ space_notMem_escapeString e.1 (hu.subset hmem)
    rw [loadLine, dropWhile_ne_eq_nil_iff.2 hn]
    exact ite_self data
  rw [entryLine, List.append_assoc, List.singleton_append] at h
  rcases prefix_append_cases h with hkey | ⟨u, hu, rfl⟩
  · exact Or.inl (hskip hkey)
  · rcases List.prefix_cons_iff.1 hu with rfl | ⟨v, rfl, hv⟩
    · rw [List.append_nil]
      exact Or.inl (hskip (List.prefix_refl _))
    · exact Or.inr ⟨_, isTornValue_unescapeString hv, loadLine_escapeString_append data e.1 v⟩

section Torn

variable {p : MMapPersistence} {data : Data}

/-- **A cut file** is loaded as a beginning of the map. -/
theorem salvaged_of_prefix (h : p.file <+: snapshotText data) : Salvaged data p.load := by
  have hnodup : ∀ {l : List (Σ _ : Bytes, Bytes)}, l <+: data.entries → l.NodupKeys := fun hl ↦
    data.nodupKeys.sublist hl.sublist
  rcases prefix_flatMap_concat h with ⟨kept, hkept, hfile⟩ | ⟨kept, e, t, hkept, ht, hne, hfile⟩
  · have hload := load_eq_of_file (hfile.trans (List.append_nil _).symm)
    rw [hload]
    exact Or.inl ⟨kept, hkept, foldl_insert_perm (hnodup hkept)⟩
  · have hn : newline ∉ t := fun hmem ↦ newline_notMem_entryLine e (ht.subset hmem)
    have hload := load_eq_of_file hfile
    rw [getlines_of_notMem hn hne, List.foldl_cons, List.foldl_nil] at hload
    rw [hload]
    rcases loadLine_torn ht (kept.foldl (fun d e ↦ d.insert e.1 e.2) ∅) with
      hskip | ⟨torn, htorn, hinsert⟩
    · have hfront : kept <+: data.entries := (List.prefix_append _ _).trans hkept
      rw [hskip]
      exact Or.inl ⟨kept, hfront, foldl_insert_perm (hnodup hfront)⟩
    · rw [hinsert]
      refine Or.inr ⟨kept, e, torn, hkept, htorn, ?_⟩
      -- the keys are those of the entries that were written
      have hkeys : (kept ++ [(⟨e.1, torn⟩ : Σ _ : Bytes, Bytes)]).NodupKeys := by
        have := hnodup hkept
        rw [List.NodupKeys, List.keys, List.map_append] at this ⊢
        exact this
      have hperm := foldl_insert_perm hkeys
      rw [List.foldl_append] at hperm
      exact hperm

/-- Without its last newline a snapshot is still complete. -/
theorem load_of_newline_missing (h : p.file <+: snapshotText data)
    (hlen : (snapshotText data).length ≤ p.file.length + 1) :
    p.load.entries.Perm data.entries := by
  obtain ⟨s, hs⟩ := h
  have hs_len : s.length ≤ 1 := by
    rw [← hs, List.length_append] at hlen
    omega
  rcases s with - | ⟨c, s⟩
  · rw [List.append_nil] at hs
    exact load_snapshotText hs
  · obtain rfl : s = [] := List.eq_nil_of_length_eq_zero (by simpa using hs_len)
    rcases List.eq_nil_or_concat data.entries with hnil | ⟨kept, e, hentries⟩
    · rw [snapshotText, hnil] at hs
      exact absurd hs (by simp)
    · have htext : snapshotText data =
          ((kept.flatMap fun e ↦ entryLine e ++ [newline]) ++ entryLine e) ++ [newline] := by
        simp [snapshotText, hentries]
      have hload := load_eq_of_file (List.append_inj' (hs.trans htext) rfl).1
      have hne : entryLine e ≠ [] := by simp [entryLine]
      rw [getlines_of_notMem (newline_notMem_entryLine e) hne, List.foldl_cons, List.foldl_nil,
        loadLine_entryLine] at hload
      have hfold : p.load = data.entries.foldl (fun d e ↦ d.insert e.1 e.2) ∅ := by
        rw [hload, hentries, List.concat_eq_append, List.foldl_append]
        rfl
      rw [hfold]
      exact foldl_insert_perm data.nodupKeys

end Torn

/-! ### What a failed snapshot is read as -/

/-- What can be loaded of a snapshot of `data` whose buffer was written `n` times more: but for `n`
keys, keys of `data`, each with its value or with a torn one. -/
def SalvagedBut (n : ℕ) (data d : Data) : Prop :=
  ∃ odd : List Bytes, odd.length ≤ n ∧ ∀ k v, d.lookup k = some v →
    k ∈ odd ∨ ∃ value, data.lookup k = some value ∧ IsTornValue value v

/-- A file that a failed snapshot of `data` can leave, or a beginning of one, when the buffer was
written at most `n` times more. -/
def Remains (n : ℕ) (data : Data) (file : Bytes) : Prop :=
  ∃ f : Failure, f.again.length ≤ n ∧ file = f.leaves (snapshotText data)

/-- All the lines but `n` are those of entries, or beginnings of them. -/
def AllBut (n : ℕ) (data : Data) (lines : List Bytes) : Prop :=
  ∃ odd : List Bytes, odd.length ≤ n ∧
    ∀ line ∈ lines, line ∈ odd ∨ ∃ e ∈ data.entries, line <+: entryLine e

section Remains

variable {data : Data}

theorem leaves_take (text : Bytes) (n : ℕ) : (Failure.mk n 0 []).leaves text = text.take n := by
  simp [Failure.leaves]

theorem Remains.of_prefix {file : Bytes} (h : file <+: snapshotText data) : Remains 0 data file :=
  ⟨⟨file.length, 0, []⟩, le_rfl, by rw [leaves_take, ← List.prefix_iff_eq_take.1 h]⟩

theorem Remains.mono {n m : ℕ} {file : Bytes} (h : Remains n data file) (hnm : n ≤ m) :
    Remains m data file := by
  obtain ⟨f, hf, rfl⟩ := h
  exact ⟨f, hf.trans hnm, rfl⟩

theorem exists_flatMap_take_of_prefix {buffer p : Bytes} {sizes : List ℕ}
    (h : p <+: sizes.flatMap fun n ↦ buffer.take n) :
    ∃ sizes' : List ℕ, sizes'.length ≤ sizes.length ∧ p = sizes'.flatMap fun n ↦ buffer.take n := by
  induction sizes generalizing p with
  | nil => exact ⟨[], le_rfl, List.prefix_nil.1 h⟩
  | cons n sizes ih =>
    rw [List.flatMap_cons] at h
    rcases prefix_append_cases h with hp | ⟨t, ht, rfl⟩
    · have hbuffer : p <+: buffer := hp.trans (List.take_prefix n buffer)
      refine ⟨[p.length], by simp, ?_⟩
      rw [List.flatMap_singleton, ← List.prefix_iff_eq_take.1 hbuffer]
    · obtain ⟨sizes', hlen, rfl⟩ := ih ht
      exact ⟨n :: sizes', Nat.succ_le_succ hlen, rfl⟩

/-- Without a second write of the buffer it is a beginning of the text. -/
theorem Remains.prefix_of_zero {file : Bytes} (h : Remains 0 data file) :
    file <+: snapshotText data := by
  obtain ⟨f, hf, rfl⟩ := h
  obtain hagain : f.again = [] := List.eq_nil_of_length_eq_zero (Nat.le_zero.1 hf)
  rw [Failure.leaves, hagain, List.flatMap_singleton, ← List.take_add]
  exact List.take_prefix _ _

/-- A beginning of what is left, such as a copy that failed, is one of the cases. -/
theorem Remains.isPrefix {n : ℕ} {file p : Bytes} (h : Remains n data file) (hp : p <+: file) :
    Remains n data p := by
  obtain ⟨f, hf, rfl⟩ := h
  rw [Failure.leaves] at hp
  rcases prefix_append_cases hp with hfront | ⟨t, ht, rfl⟩
  · exact (Remains.of_prefix (hfront.trans (List.take_prefix _ _))).mono (Nat.zero_le n)
  · obtain ⟨sizes, hlen, rfl⟩ := exists_flatMap_take_of_prefix ht
    cases sizes with
    | nil =>
      rw [List.flatMap_nil, List.append_nil]
      exact (Remains.of_prefix (List.take_prefix _ _)).mono (Nat.zero_le n)
    | cons torn again =>
      rw [List.length_cons, List.length_cons] at hlen
      exact ⟨⟨f.written, torn, again⟩, show again.length ≤ n by omega, rfl⟩

/-- The lines of a beginning of the text. -/
theorem AllBut.of_prefix {file : Bytes} (h : file <+: snapshotText data) :
    AllBut 0 data (getlines newline file) := by
  refine ⟨[], le_rfl, fun line hline ↦ Or.inr ?_⟩
  rcases prefix_flatMap_concat h with ⟨kept, hkept, hfile⟩ | ⟨kept, e, t, hkept, ht, hne, hfile⟩
  · rw [hfile, ← List.append_nil (List.flatMap _ _), getlines_flatMap_entryLine, getlines_nil,
      List.append_nil] at hline
    obtain ⟨e, he, rfl⟩ := List.mem_map.1 hline
    exact ⟨e, hkept.subset he, List.prefix_refl _⟩
  · have hn : newline ∉ t := fun hmem ↦ newline_notMem_entryLine e (ht.subset hmem)
    rw [hfile, getlines_flatMap_entryLine, getlines_of_notMem hn hne, List.mem_append,
      List.mem_singleton] at hline
    rcases hline with hline | rfl
    · obtain ⟨e', he', rfl⟩ := List.mem_map.1 hline
      exact ⟨e', hkept.subset (List.mem_append_left _ he'), List.prefix_refl _⟩
    · exact ⟨e, hkept.subset (List.mem_append_right _ (List.mem_singleton_self e)), ht⟩

/-- **The buffer once more**: one line more is none of the map's, the one where the buffer meets
what is in front of it. -/
theorem AllBut.append_take {n : ℕ} {file : Bytes} (h : AllBut n data (getlines newline file))
    (written size : ℕ) :
    AllBut (n + 1) data
      (getlines newline (file ++ ((snapshotText data).drop written).take size)) := by
  obtain ⟨odd, hlen, hodd⟩ := h
  rcases eq_or_ne (((snapshotText data).drop written).take size) [] with hnil | hne
  · rw [hnil, List.append_nil]
    exact ⟨odd, by omega, hodd⟩
  · obtain ⟨front, glued, hfront, hlines⟩ := getlines_append newline file hne
    obtain ⟨front', glued', -, hlines'⟩ :=
      getlines_append newline ((snapshotText data).take written) hne
    have htake : (snapshotText data).take written ++ ((snapshotText data).drop written).take size
        <+: snapshotText data := by
      rw [← List.take_add]
      exact List.take_prefix _ _
    obtain ⟨none, hnone, htext⟩ := AllBut.of_prefix htake
    obtain rfl : none = [] := List.eq_nil_of_length_eq_zero (Nat.le_zero.1 hnone)
    refine ⟨glued :: odd, by simpa using hlen, fun line hline ↦ ?_⟩
    rw [hlines, List.mem_append, List.mem_cons] at hline
    rcases hline with hline | rfl | hline
    · exact (hodd line (hfront hline)).imp_left (List.mem_cons_of_mem _)
    · exact Or.inl (List.mem_cons_self ..)
    · -- behind its first line the buffer has lines of the text
      have hmem : line ∈ getlines newline ((snapshotText data).take written ++
          ((snapshotText data).drop written).take size) := by
        rw [hlines']
        exact List.mem_append_right _ (List.mem_cons_of_mem _ hline)
      exact Or.inr ((htext line hmem).resolve_left List.not_mem_nil)

theorem Remains.allBut {n : ℕ} {file : Bytes} (h : Remains n data file) :
    AllBut n data (getlines newline file) := by
  obtain ⟨f, hf, rfl⟩ := h
  have hrun : ∀ (sizes : List ℕ) (m : ℕ) (file : Bytes), AllBut m data (getlines newline file) →
      AllBut (m + sizes.length) data (getlines newline
        (file ++ sizes.flatMap fun n ↦ ((snapshotText data).drop f.written).take n)) := by
    intro sizes
    induction sizes with
    | nil =>
      intro m file hfile
      rw [List.flatMap_nil, List.append_nil]
      exact hfile
    | cons size sizes ih =>
      intro m file hfile
      rw [List.flatMap_cons, ← List.append_assoc, List.length_cons, Nat.add_comm _ 1,
        ← Nat.add_assoc]
      exact ih (m + 1) _ (hfile.append_take f.written size)
  have hfirst : (snapshotText data).take f.written ++
      ((snapshotText data).drop f.written).take f.torn <+: snapshotText data := by
    rw [← List.take_add]
    exact List.take_prefix _ _
  obtain ⟨odd, hlen, hodd⟩ := hrun f.again 0 _ (AllBut.of_prefix hfirst)
  refine ⟨odd, by omega, ?_⟩
  rw [Failure.leaves, List.flatMap_cons, ← List.append_assoc]
  exact hodd

/-- The key of a line. -/
def lineKey (line : Bytes) : Bytes := unescapeString (line.takeWhile (· != space))

/-- A line is skipped, or is an entry. -/
theorem loadLine_cases (line : Bytes) :
    (∀ d : Data, loadLine d line = d) ∨
      ∃ v, ∀ d : Data, loadLine d line = d.insert (lineKey line) v := by
  rcases hempty : line.isEmpty with - | -
  · rcases hdrop : line.dropWhile (· != space) with - | ⟨c, value⟩
    · exact Or.inl fun d ↦ by rw [loadLine, hempty, hdrop]; rfl
    · exact Or.inr ⟨_, fun d ↦ by rw [loadLine, hempty, hdrop]; rfl⟩
  · exact Or.inl fun d ↦ by rw [loadLine, hempty]; rfl

/-- A loaded entry stems from a line with its key. -/
theorem exists_line_of_lookup {lines : List Bytes} {d : Data} {k v : Bytes}
    (h : (lines.foldl loadLine d).lookup k = some v) :
    d.lookup k = some v ∨
      ∃ line ∈ lines, lineKey line = k ∧ ∀ d' : Data, loadLine d' line = d'.insert k v := by
  induction lines generalizing d with
  | nil => exact Or.inl h
  | cons line lines ih =>
    rcases ih h with hd | ⟨l, hl, hload⟩
    · rcases loadLine_cases line with hskip | ⟨value, hinsert⟩
      · rw [hskip] at hd
        exact Or.inl hd
      · rw [hinsert] at hd
        rcases eq_or_ne k (lineKey line) with rfl | hne
        · rw [AList.lookup_insert] at hd
          obtain rfl := Option.some.inj hd
          exact Or.inr ⟨line, List.mem_cons_self .., rfl, hinsert⟩
        · rw [AList.lookup_insert_ne hne] at hd
          exact Or.inl hd
    · exact Or.inr ⟨l, List.mem_cons_of_mem _ hl, hload⟩

/-- **What is left of a failed snapshot** is loaded as keys of the map, but for the keys of the
lines where the buffer was started again. -/
theorem Remains.salvagedBut {n : ℕ} {p : MMapPersistence} (h : Remains n data p.file) :
    SalvagedBut n data p.load := by
  obtain ⟨odd, hlen, hodd⟩ := h.allBut
  refine ⟨odd.map lineKey, by simpa using hlen, fun k v hk ↦ ?_⟩
  rcases exists_line_of_lookup hk with hnone | ⟨line, hline, hkey, hload⟩
  · rw [AList.lookup_empty] at hnone
    exact absurd hnone (by simp)
  · rcases hodd line hline with hmem | ⟨e, he, hprefix⟩
    · exact Or.inl (List.mem_map.2 ⟨line, hmem, hkey⟩)
    · have hlookup : (loadLine ∅ line).lookup k = some v := by
        rw [hload, AList.lookup_insert]
      rcases loadLine_torn hprefix ∅ with hskip | ⟨torn, htorn, hinsert⟩
      · rw [hskip, AList.lookup_empty] at hlookup
        exact absurd hlookup (by simp)
      · rw [hinsert] at hlookup
        rcases eq_or_ne k e.1 with rfl | hne
        · rw [AList.lookup_insert] at hlookup
          obtain rfl := Option.some.inj hlookup
          exact Or.inr ⟨e.2, AList.mem_lookup_iff.2 he, htorn⟩
        · rw [AList.lookup_insert_ne hne, AList.lookup_empty] at hlookup
          exact absurd hlookup (by simp)

end Remains

/-! ### Stopping -/

/-- What `snapshot` does to the file. -/
inductive Effect where
  | truncate
  | put (c : UInt8)

/-- The file after an effect. -/
def Effect.apply (file : Bytes) : Effect → Bytes
  | .truncate => []
  | .put c => file ++ [c]

/-- The effects of `snapshot`, in order: opening truncates, then the bytes of the lines. -/
def effects (p : MMapPersistence) (data : Data) : List Effect :=
  if p.openable then .truncate :: (snapshotText data).map .put else []

/-- The process stops after the first `k` effects of `snapshot`. -/
def stopped (p : MMapPersistence) (data : Data) (k : ℕ) : MMapPersistence :=
  { p with file := ((p.effects data).take k).foldl Effect.apply p.file }

theorem foldl_apply_put (l file : Bytes) :
    (l.map Effect.put).foldl Effect.apply file = file ++ l := by
  induction l generalizing file with
  | nil => exact (List.append_nil file).symm
  | cons c l ih => exact (ih (file ++ [c])).trans (List.append_cons file c l).symm

variable (p : MMapPersistence) (data : Data)

theorem stopped_succ (hopen : p.openable = true) (n : ℕ) :
    p.stopped data (n + 1) = { p with file := (snapshotText data).take n } := by
  rw [stopped, effects, if_pos hopen, List.take_succ_cons, List.foldl_cons, ← List.map_take,
    foldl_apply_put]
  rfl

theorem stopped_of_not_openable (hopen : p.openable = false) (k : ℕ) : p.stopped data k = p := by
  have heffects : p.effects data = [] := by rw [effects, if_neg (by simp [hopen])]
  rw [stopped, heffects, List.take_nil]
  rfl

/-- **What `snapshot` leaves behind** when it opened the file. -/
theorem remains_snapshot (hopen : p.openable = true) (f : Failure) :
    Remains f.again.length data (p.snapshot data (some f)).1.file := by
  refine ⟨f, le_rfl, ?_⟩
  rw [snapshot, if_pos hopen]

theorem load_stopped (k : ℕ) :
    (k = 0 ∨ p.openable = false) ∧ (p.stopped data k).load = p.load ∨
      (0 < k ∧ p.openable = true) ∧ Salvaged data (p.stopped data k).load ∧
        (k < (snapshotText data).length ∨
          (p.stopped data k).load.entries.Perm data.entries) := by
  rcases hopen : p.openable with - | -
  · exact Or.inl ⟨Or.inr rfl, by rw [stopped_of_not_openable p data hopen]⟩
  · cases k with
    | zero => exact Or.inl ⟨Or.inl rfl, rfl⟩
    | succ n =>
      have hfile : (p.stopped data (n + 1)).file <+: snapshotText data := by
        rw [stopped_succ p data hopen]
        exact List.take_prefix n _
      refine Or.inr ⟨⟨Nat.succ_pos n, rfl⟩, salvaged_of_prefix hfile, ?_⟩
      rcases lt_or_ge (n + 1) (snapshotText data).length with hlt | hge
      · exact Or.inl hlt
      · refine Or.inr (load_of_newline_missing hfile ?_)
        rw [stopped_succ p data hopen]
        show (snapshotText data).length ≤ ((snapshotText data).take n).length + 1
        rw [List.length_take]
        omega

/-- **An interrupted snapshot.** Whatever the file held: stopped before its first effect, or unable
to open the file, `snapshot` leaves the old map. Stopped later, it leaves a beginning of the new
one, which is the new one once all but the last newline is written. Throwing while it writes, it
leaves keys of the new one, each with its value or with a torn one, and besides at most as many keys
as the buffer was written again. -/
theorem load_interrupted :
    (∀ k, (k = 0 ∨ p.openable = false) ∧ (p.stopped data k).load = p.load ∨
      (0 < k ∧ p.openable = true) ∧ Salvaged data (p.stopped data k).load ∧
        (k < (snapshotText data).length ∨ (p.stopped data k).load.entries.Perm data.entries)) ∧
    ∀ failure, (p.snapshot data failure).2 = none ∨
      p.openable = false ∧ (p.snapshot data failure).1.load = p.load ∨
      p.openable = true ∧ ∃ f, failure = some f ∧
        SalvagedBut f.again.length data (p.snapshot data failure).1.load ∧
        (f.again = [] → Salvaged data (p.snapshot data failure).1.load) := by
  refine ⟨load_stopped p data, fun failure ↦ ?_⟩
  rcases hopen : p.openable with - | -
  · refine Or.inr (Or.inl ⟨rfl, ?_⟩)
    rw [snapshot.eq_def, if_neg (by simp [hopen])]
  · cases failure with
    | none => exact Or.inl (by rw [snapshot, if_pos hopen])
    | some f =>
      have hremains := remains_snapshot p data hopen f
      refine Or.inr (Or.inr ⟨rfl, f, rfl, hremains.salvagedBut, fun hagain ↦ ?_⟩)
      rw [hagain] at hremains
      exact salvaged_of_prefix hremains.prefix_of_zero

/-- Over a file with one entry, a snapshot of one entry whose value is a space: stopped behind the
truncation, or throwing because nothing can be written, it leaves an empty map, and stopped inside
the escape of the space an entry whose value is a backslash. A snapshot of `abc` and `d` that fails
behind `ab`, and whose buffer can be written when the stream is closed, leaves a key of its own. -/
theorem load_interrupted_ne :
    let p : MMapPersistence := ⟨[], [97, space, 98, newline], true⟩
    let data : Data := (∅ : Data).insert [107] [space]
    let abc : Data := (∅ : Data).insert [97, 98, 99] [100]
    p.load.entries = [⟨[97], [98]⟩] ∧ (p.snapshot data (some ⟨0, 0, [0]⟩)).2 ≠ none ∧
      (p.snapshot data (some ⟨0, 0, [0]⟩)).1.load.entries = [] ∧
      (p.stopped data 1).load.entries = [] ∧
      (p.stopped data 4).load.entries = [⟨[107], [backslash]⟩] ∧
      (∀ d ∈ [(p.snapshot data (some ⟨0, 0, [0]⟩)).1.load, (p.stopped data 1).load,
        (p.stopped data 4).load],
        ¬ (d.entries.Perm p.load.entries ∨ d.entries.Perm data.entries)) ∧
      (p.snapshot abc (some ⟨0, 2, [6]⟩)).2 ≠ none ∧
      (p.snapshot abc (some ⟨0, 2, [6]⟩)).1.file =
        [97, 98, 97, 98, 99, space, 100, newline] ∧
      (p.snapshot abc (some ⟨0, 2, [6]⟩)).1.load.entries = [⟨[97, 98, 97, 98, 99], [100]⟩] := by
  decide

end MMapPersistence

end DistCache
