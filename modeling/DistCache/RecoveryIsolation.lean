import DistCache.Recovery

/-!
# Whose keys a command can reach through the log

Keys and values go into the log as they are, so a command can spell out more lines than the one it
is meant to be, or another line. What the log is replayed as is decided line by line (`KeepsTo`),
and a record splits into its first line, which starts with the command word, and the later lines of
its value (`keepsTo_text_iff`). This gives the exact condition under which a command touches nothing
but its own key, whatever is logged around it: `nonInterfering_iff`.

The other persistence path, the snapshot, escapes the separators and needs no such condition.
-/

namespace DistCache

open CharStream
open Recency (applyAll overwrite Roomy)

/-- Up to the first newline. -/
def firstLine (text : Bytes) : Bytes := text.takeWhile (· != newline)

/-- The lines behind the first newline. -/
def laterLines (text : Bytes) : List Bytes :=
  getlines newline (text.dropWhile (· != newline)).tail

/-- The first word of the line is a command that writes. -/
def WritesTo (line : Bytes) : Prop := word isSpace line = setCmd ∨ word isSpace line = delCmd

instance (line : Bytes) : Decidable (WritesTo line) := inferInstanceAs (Decidable (_ ∨ _))

/-- A key and a value that stay within their record: the key is not cut by a blank, an empty key is
not filled from the value, and no later line of the value is a command on another key. -/
structure Contained (key value : Bytes) : Prop where
  blankless : Blankless key
  first : key = [] → word isSpace (firstLine value) = []
  later : ∀ line ∈ laterLines value, WritesTo line → word isSpace (afterWord isSpace line) = key

instance (key value : Bytes) : Decidable (Contained key value) :=
  decidable_of_iff (Blankless key ∧
      (key = [] → word isSpace (firstLine value) = []) ∧
      ∀ line ∈ laterLines value, WritesTo line → word isSpace (afterWord isSpace line) = key)
    ⟨fun ⟨h₁, h₂, h₃⟩ ↦ ⟨h₁, h₂, h₃⟩, fun ⟨h₁, h₂, h₃⟩ ↦ ⟨h₁, h₂, h₃⟩⟩

/-! ### Line by line -/

/-- Every command of the text, read line by line, is one on `key`. -/
def KeepsTo (key text : Bytes) : Prop :=
  ∀ line ∈ getlines newline text, WritesTo line → word isSpace (afterWord isSpace line) = key

/-- What is written when the text is replayed. -/
def replayedWrites (text : Bytes) : List (Recency.Write Bytes Bytes) :=
  (replayText text).flatMap Record.writes

theorem Record.key_of_mem_writes {r : Record} {w : Recency.Write Bytes Bytes}
    (h : w ∈ r.writes) : (r.operation = setCmd ∨ r.operation = delCmd) ∧ w.key = r.key := by
  rw [Record.writes] at h
  split_ifs at h with hset hdel
  · exact ⟨Or.inl hset, by rw [List.mem_singleton.1 h]; rfl⟩
  · exact ⟨Or.inr hdel, by rw [List.mem_singleton.1 h]; rfl⟩
  · exact absurd h List.not_mem_nil

theorem Record.exists_mem_writes {r : Record} (h : r.operation = setCmd ∨ r.operation = delCmd) :
    ∃ w ∈ r.writes, w.key = r.key := by
  have hne : ¬ delCmd = setCmd := by decide
  rcases h with h | h
  · exact ⟨.put r.key r.value, by simp [Record.writes, h], rfl⟩
  · exact ⟨.erase r.key, by simp [Record.writes, h, hne], rfl⟩

/-- **The replay of a text** writes only `key` when every line of it does. -/
theorem keepsTo_iff {key text : Bytes} :
    KeepsTo key text ↔ ∀ w ∈ replayedWrites text, w.key = key := by
  constructor
  · intro h w hw
    obtain ⟨r, hr, hw⟩ := List.mem_flatMap.1 hw
    obtain ⟨line, hline, rfl⟩ := List.mem_map.1 hr
    have hmem := List.mem_of_mem_filter hline
    have hparse := parseLine_eq (notMem_of_mem_getlines hmem)
    obtain ⟨hop, hkey⟩ := Record.key_of_mem_writes hw
    rw [hparse] at hop hkey
    exact hkey.trans (h line hmem hop)
  · intro h line hline hop
    have hparse := parseLine_eq (notMem_of_mem_getlines hline)
    obtain ⟨w, hw, hkey⟩ : ∃ w ∈ (parseLine line).writes, w.key = (parseLine line).key :=
      Record.exists_mem_writes (by rw [hparse]; exact hop)
    have hne : line ≠ [] := by
      rintro rfl
      exact absurd hop (by decide)
    have hmem : parseLine line ∈ replayText text :=
      List.mem_map_of_mem (List.mem_filter.2 ⟨hline, by simpa using hne⟩)
    rw [← h w (List.mem_flatMap.2 ⟨_, hmem, hw⟩), hkey, hparse]

/-- The keys a text is replayed on are words. -/
theorem not_isSpace_of_mem_replayedWrites {text : Bytes} {w : Recency.Write Bytes Bytes}
    (h : w ∈ replayedWrites text) : Blankless w.key := by
  obtain ⟨r, hr, hw⟩ := List.mem_flatMap.1 h
  rw [(Record.key_of_mem_writes hw).2]
  exact (roundTrips_of_mem_replayText hr).key

theorem keepsTo_append_newline {key a b : Bytes} (h : newline ∉ a) :
    KeepsTo key (a ++ newline :: b) ↔
      (WritesTo a → word isSpace (afterWord isSpace a) = key) ∧ KeepsTo key b := by
  rw [KeepsTo, getlines_append_cons h, List.forall_mem_cons]
  rfl

/-- A newline at the end adds nothing to be replayed. -/
theorem keepsTo_concat {key text : Bytes} : KeepsTo key (text ++ [newline]) ↔ KeepsTo key text := by
  have hempty : ∀ line ∈ ([[]] : List Bytes), WritesTo line →
      word isSpace (afterWord isSpace line) = key := by
    intro line hline hop
    rw [List.mem_singleton.1 hline] at hop
    exact absurd hop (by decide)
  rcases getlines_concat newline text with h | h
  · rw [KeepsTo, h]
    rfl
  · rw [KeepsTo, h, List.forall_mem_append]
    exact and_iff_left hempty

/-- A text is its first line, and the newline and the text behind it, if any. -/
theorem firstLine_cases (text : Bytes) :
    newline ∉ firstLine text ∧ (text = firstLine text ∧ laterLines text = [] ∨
      ∃ later, text = firstLine text ++ newline :: later ∧
        laterLines text = getlines newline later) := by
  refine ⟨notMem_takeWhile_ne newline text, ?_⟩
  rcases hd : text.dropWhile (· != newline) with - | ⟨c, later⟩
  · have hsplit : firstLine text ++ text.dropWhile (· != newline) = text :=
      List.takeWhile_append_dropWhile
    rw [hd, List.append_nil] at hsplit
    exact Or.inl ⟨hsplit.symm, by rw [laterLines, hd]; rfl⟩
  · exact Or.inr ⟨later, eq_append_cons_of_dropWhile_ne hd, by rw [laterLines, hd]; rfl⟩

/-! ### The lines of a record -/

section RecordLines

variable {op : Bytes} (hop : op = setCmd ∨ op = delCmd)

include hop

theorem blankless_of_cmd : op ≠ [] ∧ Blankless op := by
  rcases hop with rfl | rfl
  · exact setCmd_blankless
  · exact delCmd_blankless

/-- The first line of a record is a command on the first word behind the command word. -/
theorem keepsTo_command {key a b : Bytes} (ha : newline ∉ a) :
    KeepsTo key (op ++ space :: (a ++ newline :: b)) ↔ word isSpace a = key ∧ KeepsTo key b := by
  obtain ⟨hne, hblank⟩ := blankless_of_cmd hop
  have hline : newline ∉ op ++ space :: a := by
    simp [hblank.newline_notMem, ha]
  have hwrites : WritesTo (op ++ space :: a) := by
    rw [WritesTo, word_append_blank hblank hne isSpace_space]
    exact hop
  have hsplit : op ++ space :: (a ++ newline :: b) = (op ++ space :: a) ++ newline :: b := by simp
  rw [hsplit, keepsTo_append_newline hline, afterWord_append_blank hblank hne isSpace_space,
    word_cons_blank isSpace_space]
  exact and_congr_left' ⟨fun h ↦ h hwrites, fun h _ ↦ h⟩

/-- A record that keeps to its key has a key without blanks. -/
theorem not_isSpace_of_keepsTo {key value : Bytes}
    (h : KeepsTo key (Record.text ⟨op, key, value⟩)) : Blankless key := by
  -- the text behind the command word ends in a newline, so it has a first one
  obtain ⟨rest, hrest⟩ : ∃ rest, Record.text ⟨op, key, value⟩ = op ++ space :: rest ∧
      newline ∈ rest := by
    refine ⟨(key ++ if value.isEmpty then [] else space :: value) ++ [newline], ?_, by simp⟩
    simp [Record.text, Record.line]
  obtain ⟨hfront, hwhole | ⟨later, hlater, -⟩⟩ := firstLine_cases rest
  · exact absurd (hwhole.1 ▸ hrest.2) hfront
  · rw [hrest.1, hlater, keepsTo_command hop hfront] at h
    rw [← h.1]
    exact fun ch hch ↦ not_blank_of_mem_word hch

/-- **What a record is replayed as** keeps to its key exactly when key and value are contained. -/
theorem keepsTo_text_iff {key value : Bytes} :
    KeepsTo key (Record.text ⟨op, key, value⟩) ↔ Contained key value := by
  by_cases hkey : Blankless key
  · have hkn := hkey.newline_notMem
    have hword : ∀ l,
        word isSpace (key ++ space :: l) = key ↔ (key = [] → word isSpace l = []) := by
      intro l
      rcases eq_or_ne key [] with rfl | hne
      · rw [List.nil_append, word_cons_blank isSpace_space]
        exact ⟨fun h _ ↦ h, fun h ↦ h rfl⟩
      · rw [word_append_blank hkey hne isSpace_space]
        exact ⟨fun _ h ↦ absurd h hne, fun _ ↦ rfl⟩
    have hcontained : Contained key value ↔ (key = [] → word isSpace (firstLine value) = []) ∧
        ∀ line ∈ laterLines value, WritesTo line → word isSpace (afterWord isSpace line) = key :=
      ⟨fun h ↦ ⟨h.first, h.later⟩, fun h ↦ ⟨hkey, h.1, h.2⟩⟩
    rcases eq_or_ne value [] with rfl | hvalue
    · have htext : Record.text ⟨op, key, []⟩ = op ++ space :: (key ++ newline :: []) := by
        simp [Record.text, Record.line]
      have hself : word isSpace key = key := by
        rcases eq_or_ne key [] with rfl | hne
        · rfl
        · exact word_self hkey hne
      rw [htext, keepsTo_command hop hkn]
      refine iff_of_true ⟨hself, fun line hline ↦ absurd hline List.not_mem_nil⟩ ?_
      exact ⟨hkey, fun _ ↦ rfl, fun line hline ↦ absurd hline List.not_mem_nil⟩
    · have htext : Record.text ⟨op, key, value⟩ =
          op ++ space :: ((key ++ space :: value) ++ [newline]) := by
        simp [Record.text, Record.line, hvalue]
      obtain ⟨hfront, hcases⟩ := firstLine_cases value
      have hline : newline ∉ key ++ space :: firstLine value := by
        simp [hkn, hfront]
      rcases hcases with ⟨hv, hlater⟩ | ⟨later, hv, hlater⟩
      · -- the record is one line
        have hsplit : (key ++ space :: value) ++ [newline] =
            (key ++ space :: firstLine value) ++ newline :: [] := by rw [← hv]
        rw [htext, hsplit, keepsTo_command hop hline, hword, hcontained, hlater]
        exact and_congr_right' (iff_of_true (fun line hline ↦ absurd hline List.not_mem_nil)
          fun line hline ↦ absurd hline List.not_mem_nil)
      · -- later lines follow, the last of them closed by the newline of the record
        have hsplit : (key ++ space :: value) ++ [newline] =
            (key ++ space :: firstLine value) ++ newline :: (later ++ [newline]) := by
          conv_lhs => rw [hv]
          simp
        rw [htext, hsplit, keepsTo_command hop hline, hword, hcontained, hlater, keepsTo_concat]
        rfl
  · exact iff_of_false (fun h ↦ hkey (not_isSpace_of_keepsTo hop h)) fun h ↦ hkey h.blankless

end RecordLines

/-! ### Two runs -/

/-- What replaying the record of a command writes. -/
def Command.replayed (c : Command) : List (Recency.Write Bytes Bytes) :=
  c.records.flatMap fun r ↦ replayedWrites r.text

/-- What the replay of the log of a run writes. -/
theorem replayedWrites_run (capacity : ℕ) (filename : Bytes) (l : List Request) :
    ((TCPServer.fresh capacity filename).run (l.map .request)).wal.replay.flatMap Record.writes =
      (l.map Request.command).flatMap Command.replayed := by
  rw [TCPServer.replay_run_fresh, replayText_textOf, List.flatMap_assoc, List.flatMap_assoc]
  rfl

/-- The value of `k` after the log of the requests has been replayed into an empty cache. -/
def restored (capacity : ℕ) (filename : Bytes) (clock : ℕ → Time) (l : List Request) (k : Bytes) :
    Option Bytes :=
  (recover capacity ∅ ((TCPServer.fresh capacity filename).run (l.map .request)).wal clock
    clock).value? k

/-- Neither the run nor the replay of its log ever evicts anything. -/
def NeverFull (capacity : ℕ) (l : List Request) : Prop :=
  Roomy capacity ∅ ((l.map Request.command).flatMap Command.writes) ∧
    Roomy capacity ∅ ((l.map Request.command).flatMap Command.replayed)

theorem restored_eq {capacity : ℕ} {l : List Request} (h : NeverFull capacity l) (filename : Bytes)
    (clock : ℕ → Time) (k : Bytes) : restored capacity filename clock l k =
      overwrite k none ((l.map Request.command).flatMap Command.replayed) := by
  rw [restored, ← SafeCache.lookup_data, data_recover, replayedWrites_run]
  exact Recency.lookup_applyAll (Nat.zero_le _) h.2 k

/-- A request has no influence on other keys: whatever is requested before and after it, what a
replay of the log restores for them is the same with and without it. -/
def NonInterfering (r : Request) : Prop :=
  ∀ (capacity : ℕ) (filename : Bytes) (clock : ℕ → Time) (before after : List Request) (k : Bytes),
    k ≠ r.command.key → NeverFull capacity (before ++ r :: after) →
      NeverFull capacity (before ++ after) →
        restored capacity filename clock (before ++ r :: after) k =
          restored capacity filename clock (before ++ after) k

/-- A request that is replayed on its own key only. -/
theorem nonInterfering_of_replayed {r : Request}
    (h : ∀ w ∈ r.command.replayed, w.key = r.command.key) : NonInterfering r := by
  intro capacity filename clock before after k hk hwith hwithout
  have hne : ∀ w ∈ r.command.replayed, w.key ≠ k := fun w hw heq ↦ hk (heq ▸ h w hw)
  rw [restored_eq hwith, restored_eq hwithout, List.map_append, List.map_append, List.map_cons,
    List.flatMap_append, List.flatMap_append, List.flatMap_cons, Recency.overwrite_append,
    Recency.overwrite_append, Recency.overwrite_append, Recency.overwrite_of_ne hne]

/-- A `SET` of an unbroken key with an empty value is replayed as it is. -/
theorem replayed_set_nil {k : Bytes} (hk : Blankless k) :
    (Command.set k []).replayed = [.put k []] := by
  have hr : Record.RoundTrips ⟨setCmd, k, []⟩ :=
    ⟨setCmd_blankless.2, hk, List.not_mem_nil, fun _ ↦ rfl, fun h ↦ absurd h setCmd_blankless.1⟩
  show replayedWrites (Record.text ⟨setCmd, k, []⟩) ++ [] = _
  rw [List.append_nil, replayedWrites, replayText_text hr]
  rfl

/-- Every finite run fits into some capacity. -/
theorem exists_neverFull (l l' : List Request) :
    ∃ capacity, NeverFull capacity l ∧ NeverFull capacity l' := by
  refine ⟨((l.map Request.command).flatMap Command.writes).length +
    ((l.map Request.command).flatMap Command.replayed).length +
    ((l'.map Request.command).flatMap Command.writes).length +
    ((l'.map Request.command).flatMap Command.replayed).length, ⟨?_, ?_⟩, ?_, ?_⟩
  all_goals
    refine Recency.roomy_of_length_le ?_
    rw [AList.keys_empty, List.length_nil]
    omega

/-- A request that is replayed on another key interferes with it. If it leaves a value there, the
key has none without it; if it leaves none, it deletes the value of an earlier `SET`. -/
theorem not_nonInterfering_of_replayed {r : Request} {w : Recency.Write Bytes Bytes}
    (hw : w ∈ r.command.replayed) (hkey : w.key ≠ r.command.key)
    (hblank : Blankless w.key) : ¬ NonInterfering r := by
  intro h
  rcases hx : overwrite w.key none r.command.replayed with - | x
  · -- it leaves nothing there: let the key be set before
    let first : Request := ⟨.set w.key [], 0, 0⟩
    obtain ⟨capacity, hwith, hwithout⟩ := exists_neverFull [first, r] [first]
    have heq := h capacity [] (fun _ ↦ 0) [first] [] w.key hkey hwith hwithout
    simp only [List.singleton_append, List.append_nil] at heq
    rw [restored_eq hwith, restored_eq hwithout] at heq
    have hfirst : first.command.replayed = [.put w.key []] := replayed_set_nil hblank
    simp only [List.map_cons, List.map_nil, List.flatMap_cons, List.flatMap_nil, List.append_nil,
      Recency.overwrite_append, hfirst] at heq
    rw [Recency.overwrite_congr ⟨w, hw, rfl⟩ _ none, hx] at heq
    simp [overwrite, Recency.Write.key, Recency.Write.value] at heq
  · -- it leaves a value there: the empty log leaves none
    obtain ⟨capacity, hwith, hwithout⟩ := exists_neverFull [r] []
    have heq := h capacity [] (fun _ ↦ 0) [] [] w.key hkey hwith hwithout
    simp only [List.nil_append] at heq
    rw [restored_eq hwith, restored_eq hwithout] at heq
    simp only [List.map_cons, List.map_nil, List.flatMap_cons, List.flatMap_nil, List.append_nil,
      hx] at heq
    exact absurd heq (by simp [overwrite])

/-- **Which commands keep to themselves.** A `SET` or `DEL` has no influence on what a replay
restores for other keys if and only if its key has no blank in it, an empty key comes with a blank
first line of the value, and every later line of the value that starts with a command word names the
same key. -/
theorem nonInterfering_iff (r : Request) (hr : r.command.records ≠ []) :
    NonInterfering r ↔ Contained r.command.key r.command.value := by
  obtain ⟨op, hop, hrecords⟩ : ∃ op, (op = setCmd ∨ op = delCmd) ∧
      r.command.records = [⟨op, r.command.key, r.command.value⟩] := by
    rcases r with ⟨c, now, access⟩
    cases c with
    | set key value => exact ⟨setCmd, Or.inl rfl, rfl⟩
    | get key => exact absurd rfl hr
    | del key => exact ⟨delCmd, Or.inr rfl, rfl⟩
  have hreplayed : r.command.replayed =
      replayedWrites (Record.text ⟨op, r.command.key, r.command.value⟩) := by
    rw [Command.replayed, hrecords, List.flatMap_singleton]
  rw [← keepsTo_text_iff hop, keepsTo_iff, ← hreplayed]
  constructor
  · intro h w hw
    by_contra hkey
    exact not_nonInterfering_of_replayed hw hkey
      (not_isSpace_of_mem_replayedWrites (hreplayed ▸ hw)) h
  · exact nonInterfering_of_replayed

/-- Blanks in the value, and a later line that is no command. -/
theorem nonInterfering_two_lines :
    NonInterfering
      ⟨.set (bytes ['k']) (bytes ['a', ' ', 'b', '\n', 'G', 'E', 'T', ' ', 'e']), 0, 0⟩ :=
  (nonInterfering_iff _ (by decide)).2 (by decide)

/-- **A value that sets another key.** `SET k` with the value `x`, newline, `SET e v` is replayed as
two commands, and restores a value for `e`. -/
theorem not_nonInterfering_set :
    ¬ NonInterfering
      ⟨.set (bytes ['k']) (bytes ['x', '\n', 'S', 'E', 'T', ' ', 'e', ' ', 'v']), 0, 0⟩ := by
  intro h
  have heq := h 2 [] (fun _ ↦ 0) [] [] (bytes ['e']) (by decide)
    ⟨Recency.roomy_of_length_le (by decide), Recency.roomy_of_length_le (by decide)⟩
    ⟨trivial, trivial⟩
  have hwith : restored 2 [] (fun _ ↦ 0) [⟨.set (bytes ['k'])
      (bytes ['x', '\n', 'S', 'E', 'T', ' ', 'e', ' ', 'v']), 0, 0⟩] (bytes ['e']) =
        some (bytes ['v']) := by decide
  have hwithout : restored 2 [] (fun _ ↦ 0) [] (bytes ['e']) = none := by decide
  exact absurd (hwith.symm.trans (heq.trans hwithout)) (by decide)

end DistCache
