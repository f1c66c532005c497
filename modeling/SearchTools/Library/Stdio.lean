/-
# Reading a file by lines

`fgets` reads into a buffer of fixed size, so a line that does not fit is read
in pieces. A file is the list of its bytes, cut behind every newline; the last line may
lack its own. `fgets` never passes over a newline, so the buffers of a file are those of
its lines, one line after the other, whichever lines are left out.
-/

import SearchTools.Library.Memory

namespace SearchTools.Library

/-- At most `room` bytes of the file, up to and including a newline, and what
is left of the file. -/
def takeLine : ℕ → Bytes → Bytes × Bytes
  | 0, file => ([], file)
  | _ + 1, [] => ([], [])
  | room + 1, c :: file =>
      if c = 10 then ([c], file)
      else (c :: (takeLine room file).1, (takeLine room file).2)

/-- `fgets(buf, size, f)`: null at the end of the file. -/
def fgets (size : ℕ) (file : Bytes) : Option (Bytes × Bytes) :=
  if file = [] then none else some (takeLine (size - 1) file)

/-- The buffers of `while (fgets(buf, size, f))`, in at most `fuel` calls. -/
def readLinesFuel (size : ℕ) : ℕ → Bytes → List Bytes
  | 0, _ => []
  | fuel + 1, file =>
      match fgets size file with
      | none => []
      | some (buf, rest) => buf :: readLinesFuel size fuel rest

/-- The buffers of `while (fgets(buf, size, f))`: every call takes a byte at
least, so as many calls as the file has bytes are enough. -/
def readLines (size : ℕ) (file : Bytes) : List Bytes :=
  readLinesFuel size file.length file

theorem length_takeLine_le (room : ℕ) (file : Bytes) :
    (takeLine room file).2.length ≤ file.length := by
  induction room generalizing file with
  | zero => exact Nat.le_refl _
  | succ room ih =>
      match file with
      | [] => exact Nat.le_refl _
      | c :: file =>
          unfold takeLine
          split
          · exact Nat.le_succ _
          · exact Nat.le_succ_of_le (ih file)

theorem length_takeLine_lt {room : ℕ} (hroom : 0 < room) (c : UInt8) (file : Bytes) :
    (takeLine room (c :: file)).2.length < file.length + 1 := by
  obtain ⟨room, rfl⟩ := Nat.exists_eq_add_one.mpr hroom
  unfold takeLine
  split
  · exact Nat.lt_succ_self _
  · exact Nat.lt_succ_of_le (length_takeLine_le room file)

/-- Fuel beyond the number of bytes changes nothing. -/
theorem readLinesFuel_congr {size : ℕ} (hsize : 2 ≤ size) {m n : ℕ} {file : Bytes}
    (hm : file.length ≤ m) (hn : file.length ≤ n) :
    readLinesFuel size m file = readLinesFuel size n file := by
  induction m generalizing n file with
  | zero =>
      obtain rfl := List.eq_nil_of_length_eq_zero (Nat.le_zero.mp hm)
      cases n <;> rfl
  | succ m ih =>
      match file, n with
      | [], 0 => rfl
      | [], n + 1 => rfl
      | c :: file, n + 1 =>
          have hlt := length_takeLine_lt (show 0 < size - 1 by omega) c file
          simp only [List.length_cons] at hm hn
          simp only [readLinesFuel, fgets, List.cons_ne_nil, if_false]
          rw [ih (n := n) (by omega) (by omega)]

/-- The loop `while (fgets(buf, size, f))`, unrolled once. -/
theorem readLines_eq {size : ℕ} (hsize : 2 ≤ size) (file : Bytes) :
    readLines size file =
      match fgets size file with
      | none => []
      | some (buf, rest) => buf :: readLines size rest := by
  match file with
  | [] => rfl
  | c :: file =>
      have hlt := length_takeLine_lt (show 0 < size - 1 by omega) c file
      simp only [readLines, List.length_cons, readLinesFuel, fgets, List.cons_ne_nil, if_false]
      rw [readLinesFuel_congr hsize (Nat.le_of_lt_succ hlt) (Nat.le_refl _)]

/-- A line that fits is read whole. -/
theorem takeLine_line {room : ℕ} {line rest : Bytes} (hline : 10 ∉ line)
    (hroom : line.length < room) :
    takeLine room (line ++ 10 :: rest) = (line ++ [10], rest) := by
  induction line generalizing room with
  | nil =>
      obtain ⟨room, rfl⟩ := Nat.exists_eq_add_one.mpr hroom
      rfl
  | cons c line ih =>
      obtain ⟨room, rfl⟩ := Nat.exists_eq_add_one.mpr (Nat.lt_of_le_of_lt (Nat.zero_le _) hroom)
      have hc : c ≠ 10 := fun h => hline (h ▸ List.mem_cons_self)
      have hrest := ih (fun h => hline (List.mem_cons_of_mem _ h))
        (Nat.lt_of_succ_lt_succ hroom)
      simp [takeLine, hc, hrest]

/-- Of a line that does not fit as much is read as does. -/
theorem takeLine_full {piece : Bytes} (hpiece : 10 ∉ piece) (rest : Bytes) :
    takeLine piece.length (piece ++ rest) = (piece, rest) := by
  induction piece with
  | nil => rfl
  | cons c piece ih =>
      have hc : c ≠ 10 := fun h => hpiece (h ▸ List.mem_cons_self)
      have hrest := ih fun h => hpiece (List.mem_cons_of_mem _ h)
      simp [takeLine, hc, hrest]

/-- A last line may lack its newline. -/
theorem takeLine_end {room : ℕ} {line : Bytes} (hline : 10 ∉ line) (hroom : line.length ≤ room) :
    takeLine room line = (line, []) := by
  induction line generalizing room with
  | nil => cases room <;> rfl
  | cons c line ih =>
      rcases Nat.exists_eq_add_one.mpr (Nat.lt_of_lt_of_le (Nat.succ_pos _) hroom) with ⟨room, rfl⟩
      have hc : c ≠ 10 := fun h => hline (h ▸ List.mem_cons_self)
      have hrest := ih (fun h => hline (List.mem_cons_of_mem _ h)) (Nat.le_of_succ_le_succ hroom)
      simp [takeLine, hc, hrest]

theorem readLines_of_takeLine {size : ℕ} (hsize : 2 ≤ size) {file buf rest : Bytes}
    (hfile : file ≠ []) (htake : takeLine (size - 1) file = (buf, rest)) :
    readLines size file = buf :: readLines size rest := by
  rw [readLines_eq hsize, fgets, if_neg hfile, htake]

/-- A line that fits is one buffer. -/
theorem readLines_line {size : ℕ} {line rest : Bytes} (hline : 10 ∉ line)
    (hlen : line.length + 1 < size) :
    readLines size (line ++ 10 :: rest) = (line ++ [10]) :: readLines size rest := by
  have hne : line ++ 10 :: rest ≠ [] := List.append_ne_nil_of_right_ne_nil _ (List.cons_ne_nil _ _)
  exact readLines_of_takeLine (by omega) hne (takeLine_line hline (by omega))

/-- A line that does not fit is read in pieces. -/
theorem readLines_full {size : ℕ} (hsize : 2 ≤ size) {piece : Bytes} (hpiece : 10 ∉ piece)
    (hlen : piece.length = size - 1) (rest : Bytes) :
    readLines size (piece ++ rest) = piece :: readLines size rest := by
  have hne : piece ++ rest ≠ [] := by
    intro hnil
    have hlength := congrArg List.length hnil
    simp only [List.length_append, List.length_nil] at hlength
    omega
  apply readLines_of_takeLine hsize hne
  rw [← hlen]
  exact takeLine_full hpiece rest

/-- Behind a newline reading goes on as at the beginning of a file. -/
theorem readLines_append {size : ℕ} (hsize : 2 ≤ size) {line : Bytes} (hline : 10 ∉ line)
    (rest : Bytes) :
    readLines size (line ++ 10 :: rest) = readLines size (line ++ [10]) ++ readLines size rest := by
  induction hlength : line.length using Nat.strongRecOn generalizing line with
  | ind n ih =>
      by_cases hfits : line.length + 1 < size
      · rw [readLines_line hline hfits, readLines_line hline hfits]
        rfl
      · have hpiece : 10 ∉ line.take (size - 1) := fun h => hline (List.mem_of_mem_take h)
        have hdrop : 10 ∉ line.drop (size - 1) := fun h => hline (List.mem_of_mem_drop h)
        have hlen : (line.take (size - 1)).length = size - 1 :=
          List.length_take_of_le (by omega)
        have hshorter : (line.drop (size - 1)).length < n := by
          rw [List.length_drop]
          omega
        have hrest := ih _ hshorter hdrop rfl
        rw [← List.take_append_drop (size - 1) line, List.append_assoc, List.append_assoc,
          readLines_full hsize hpiece hlen, readLines_full hsize hpiece hlen, hrest]
        rfl

/-- Lines that fit, each ended by a newline, are read back one by one. -/
theorem readLines_lines {size : ℕ} {lines : List Bytes}
    (hlines : ∀ line ∈ lines, 10 ∉ line ∧ line.length + 1 < size) :
    readLines size (lines.flatMap (· ++ [10])) = lines.map (· ++ [10]) := by
  induction lines with
  | nil => rfl
  | cons line lines ih =>
      rcases hlines line List.mem_cons_self with ⟨hnewline, hlen⟩
      have hrest := ih fun other hmem => hlines other (List.mem_cons_of_mem _ hmem)
      rw [List.flatMap_cons, List.append_assoc, List.map_cons, ← hrest]
      exact readLines_line hnewline hlen

/-! ## Lines -/

/-- The lines of a file, each with its newline. -/
def splitLines : Bytes → List Bytes
  | [] => []
  | c :: file =>
      if c = 10 then [c] :: splitLines file
      else
        match splitLines file with
        | [] => [[c]]
        | line :: lines => (c :: line) :: lines

/-- A file is empty, or one line without a newline, or a line and the file after it. -/
theorem lines_induction {motive : Bytes → Prop} (last : ∀ text, 10 ∉ text → motive text)
    (line : ∀ text rest, 10 ∉ text → motive rest → motive (text ++ 10 :: rest)) (file : Bytes) :
    motive file := by
  induction hlength : file.length using Nat.strongRecOn generalizing file with
  | ind n ih =>
      by_cases hnewline : 10 ∈ file
      · rcases List.eq_append_cons_of_mem hnewline with ⟨text, rest, hfile, htext⟩
        have hshorter : rest.length < n := by
          rw [← hlength, hfile, List.length_append, List.length_cons]
          omega
        rw [hfile]
        exact line text rest htext (ih _ hshorter rest rfl)
      · exact last file hnewline

theorem splitLines_line {text : Bytes} (htext : 10 ∉ text) (rest : Bytes) :
    splitLines (text ++ 10 :: rest) = (text ++ [10]) :: splitLines rest := by
  induction text with
  | nil => simp [splitLines]
  | cons c text ih =>
      have hc : c ≠ 10 := fun h => htext (h ▸ List.mem_cons_self)
      have hrest := ih fun h => htext (List.mem_cons_of_mem _ h)
      simp [splitLines, hc, hrest]

theorem splitLines_last {text : Bytes} (htext : 10 ∉ text) (hne : text ≠ []) :
    splitLines text = [text] := by
  induction text with
  | nil => exact absurd rfl hne
  | cons c text ih =>
      have hc : c ≠ 10 := fun h => htext (h ▸ List.mem_cons_self)
      cases text with
      | nil => simp [splitLines, hc]
      | cons d text =>
          have hrest := ih (fun h => htext (List.mem_cons_of_mem _ h)) (List.cons_ne_nil d text)
          rw [splitLines, if_neg hc, hrest]

theorem flatten_splitLines (file : Bytes) : (splitLines file).flatten = file := by
  induction file using lines_induction with
  | last text htext =>
      by_cases hnil : text = []
      · rw [hnil]
        rfl
      · rw [splitLines_last htext hnil, List.flatten_singleton]
  | line text rest htext ih =>
      rw [splitLines_line htext, List.flatten_cons, ih, List.append_assoc, List.singleton_append]

/-- Every line is a file of one line. -/
theorem splitLines_of_mem {line file : Bytes} (hline : line ∈ splitLines file) :
    splitLines line = [line] := by
  induction file using lines_induction with
  | last text htext =>
      by_cases hnil : text = []
      · rw [hnil] at hline
        cases hline
      · have hlast := splitLines_last htext hnil
        rw [hlast, List.mem_singleton] at hline
        rw [hline, hlast]
  | line text rest htext ih =>
      rw [splitLines_line htext] at hline
      rcases List.mem_cons.mp hline with heq | hrest
      · rw [heq]
        exact splitLines_line htext []
      · exact ih hrest

/-- Leave out the lines that `p` rejects. -/
def filterLines (p : Bytes → Bool) (file : Bytes) : Bytes := ((splitLines file).filter p).flatten

/-- What is left of a file is read line by line. -/
theorem readLines_filterLines {size : ℕ} (hsize : 2 ≤ size) (p : Bytes → Bool) (file : Bytes) :
    readLines size (filterLines p file) =
      ((splitLines file).filter p).flatMap (readLines size) := by
  unfold filterLines
  induction file using lines_induction with
  | last text htext =>
      by_cases hnil : text = []
      · rw [hnil]
        rfl
      · rw [splitLines_last htext hnil]
        cases hp : p text with
        | false =>
            rw [List.filter_cons_of_neg (by simp [hp])]
            rfl
        | true =>
            rw [List.filter_cons_of_pos hp, List.filter_nil, List.flatten_singleton,
              List.flatMap_singleton]
  | line text rest htext ih =>
      rw [splitLines_line htext]
      cases hp : p (text ++ [10]) with
      | false => rw [List.filter_cons_of_neg (by simp [hp]), ih]
      | true =>
          rw [List.filter_cons_of_pos hp, List.flatten_cons, List.flatMap_cons, List.append_assoc,
            List.singleton_append, readLines_append hsize htext, ih]

theorem readLines_eq_flatMap {size : ℕ} (hsize : 2 ≤ size) (file : Bytes) :
    readLines size file = (splitLines file).flatMap (readLines size) := by
  have hall := readLines_filterLines hsize (fun _ => true) file
  have hfilter : (splitLines file).filter (fun _ => true) = splitLines file :=
    List.filter_eq_self.mpr fun _ _ => rfl
  rwa [filterLines, hfilter, flatten_splitLines] at hall

/-- The first buffer begins as the file does. -/
theorem exists_readLines_cons {size : ℕ} (hsize : 2 ≤ size) (c : UInt8) (file : Bytes) :
    ∃ piece pieces, readLines size (c :: file) = (c :: piece) :: pieces := by
  rcases Nat.exists_eq_add_of_le hsize with ⟨room, hroom⟩
  have hfirst : ∃ piece rest, takeLine (size - 1) (c :: file) = (c :: piece, rest) := by
    rw [hroom, show 2 + room - 1 = room + 1 by omega]
    by_cases hc : c = 10
    · exact ⟨[], file, by rw [takeLine, if_pos hc]⟩
    · exact ⟨_, _, by rw [takeLine, if_neg hc]⟩
  rcases hfirst with ⟨piece, rest, htake⟩
  exact ⟨piece, readLines size rest,
    readLines_of_takeLine hsize (List.cons_ne_nil c file) htake⟩

end SearchTools.Library
