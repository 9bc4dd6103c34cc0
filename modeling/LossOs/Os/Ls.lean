/-
  `commands/ls.c`, up to the screen.

  `ls` lists a directory into a buffer that it has not cleared, and walks to the end of it. So the
  screen shows the entries of the directory's first block, each with its mark, and then what the
  walk takes for records behind them (`ls_shows_directory`). A directory of one block is shown as
  it is exactly if the stale records are all without a name of their own.
-/
import LossOs.Drivers.Sheet
import LossOs.Shell.FindChild

namespace LossOs.Os

open LossOs.Lib LossOs.Ext2 LossOs.Shell
open LossOs.Drivers (Console ConsoleCall Display KEY_LEFT KEY_RIGHT Sheet call_at calls_appear
  keyboardStateActivate lastColor lastColor_append map_getD pixels putsCall textOf whiteScreen)

/-! ## The command -/

/-- A string of the source. -/
def message (s : String) : List Int8 := s.toUTF8.toList.map UInt8.toInt8

/-- What is printed for a record: its name, up to a NUL in it, and a mark. -/
def lsEntry (dataBuffer : Mem) (r : Rec) : List ConsoleCall :=
  if r.inode = 0 then []
  else if r.name = [46] then []
  else if r.name = [46, 46] then []
  else [.puts (some fun i => (dataBuffer (r.off + 9 + i)).toInt8) (UInt32.ofNat r.name.length) 0xF,
    if r.fileType = 2 then putsCall ([47, 32], 0xA) else putsCall ([32, 32], 0xF)]

def lsCalls (dataBuffer : Mem) : List ConsoleCall :=
  (walked dataBuffer 0).flatMap (lsEntry dataBuffer) ++ [putsCall ([10, 10], 0xF)]

/-- `ls`: the calls of `puts` that it makes. -/
def ls (currentInode : Nat) : Program Op Op.Reply (List ConsoleCall) := do
  let dataBuffer ← scratch
  let (retCode, dataBuffer) ← syscall (.readDirectory (listRequest currentInode dataBuffer))
  if retCode = 0 then pure (lsCalls dataBuffer)
  else pure [putsCall (message "ls: cannot access directory\n\n", 0x7)]

/-! ## Listings -/

/-- The name of an entry, and its mark. -/
def entryText (e : Entry) : List (List Int8 × UInt8) :=
  [(e.name.map UInt8.toInt8, 0xF), if e.fileType = 2 then ([47, 32], 0xA) else ([32, 32], 0xF)]

def listing (es : List Entry) : List (List Int8 × UInt8) :=
  (es.filter fun e => Proper e).flatMap entryText ++ [([10, 10], 0xF)]

/-- What the walk meets: the first block of directory `p`, and what lies behind it. -/
def shown (m : Machine) (p : Nat) : List Entry :=
  live (firstRecords m.fs.disk p) ++ live (walked (lookedAt m p) 512)

section Walk

variable {buf : Mem} {r : Rec} {o : Nat} {d : Display}

/-- The records of a walk lie in the buffer. -/
theorem walked_recAt : ∀ r ∈ walked buf o, r = recAt buf r.off := by
  fun_induction walked buf o with
  | case1 => exact fun _ h => absurd h List.not_mem_nil
  | case2 o hlt hgo ih => exact List.forall_mem_cons.mpr ⟨rfl, ih⟩
  | case3 => exact fun _ h => absurd h List.not_mem_nil

theorem name_lt (h : r = recAt buf r.off) : r.name.length < 65536 := by
  rw [h]
  show (bytes buf _ (entryNameLen buf r.off)).length < 65536
  rw [length_bytes]
  unfold entryNameLen rd16
  have h0 := (buf (r.off + 6)).toNat_lt
  have h1 := (buf (r.off + 6 + 1)).toNat_lt
  omega

/-- The name in the buffer is printed as the string it is. -/
theorem call_name (h : r = recAt buf r.off) :
    d.call (.puts (some fun i => (buf (r.off + 9 + i)).toInt8) (UInt32.ofNat r.name.length) 0xF) =
      d.call (putsCall (r.name.map UInt8.toInt8, 0xF)) := by
  have hlen : (r.name.map UInt8.toInt8).length = r.name.length := List.length_map _
  have hlt : (r.name.map UInt8.toInt8).length < 4294967296 := by
    rw [hlen]
    exact Nat.lt_trans (name_lt h) (by decide)
  have hbytes : (List.range r.name.length).map (fun i => buf (r.off + 9 + i)) = r.name := by
    rw [h]
    show (List.range (bytes buf _ _).length).map _ = bytes buf _ _
    rw [length_bytes]
    rfl
  have hstring : (List.range (r.name.map UInt8.toInt8).length).map
      (fun i => (buf (r.off + 9 + i)).toInt8) = r.name.map UInt8.toInt8 := by
    rw [hlen]
    exact (List.map_map ..).symm.trans (congrArg (List.map UInt8.toInt8) hbytes)
  have hcall := call_at (d := d) hlt hstring 0xF
  rw [hlen] at hcall
  exact hcall.trans (call_at hlt (map_getD _) 0xF).symm

/-- One record: nothing, or what its entry looks like. -/
theorem calls_entry (h : r = recAt buf r.off) : (lsEntry buf r).foldl Display.call d =
    ((((live [r]).filter fun e => Proper e).flatMap entryText).map putsCall).foldl
      Display.call d := by
  unfold lsEntry
  by_cases h0 : r.inode = 0
  · have hnone : live [r] = [] := by
      unfold live
      rw [List.filter_cons_of_neg (by simpa using h0)]
      rfl
    rw [if_pos h0, hnone]
    rfl
  rw [if_neg h0, live_cons_of_ne h0]
  show _ = (((List.filter _ [r.entry]).flatMap entryText).map putsCall).foldl Display.call d
  by_cases hP : Proper r.entry
  · rw [if_neg (show ¬ r.name = [46] from hP.1), if_neg (show ¬ r.name = [46, 46] from hP.2),
      List.filter_cons_of_pos (by simpa using hP)]
    show (d.call _).call _ = (d.call _).call (putsCall (if r.fileType = 2 then _ else _))
    rw [call_name h]
    split_ifs <;> rfl
  · rw [List.filter_cons_of_neg (by simpa using hP)]
    by_cases h1 : r.name = [46]
    · rw [if_pos h1]
      rfl
    · have h2 : r.name = [46, 46] := Decidable.not_not.mp fun h2 => hP ⟨h1, h2⟩
      rw [if_neg h1, if_pos h2]
      rfl

theorem calls_entries {l : List Rec} (hl : ∀ r ∈ l, r = recAt buf r.off) :
    (l.flatMap (lsEntry buf)).foldl Display.call d =
      ((((live l).filter fun e => Proper e).flatMap entryText).map putsCall).foldl
        Display.call d := by
  induction l generalizing d with
  | nil => rfl
  | cons r l ih =>
    obtain ⟨hr, hrest⟩ := List.forall_mem_cons.mp hl
    rw [List.flatMap_cons, List.foldl_append, calls_entry hr, ih hrest,
      show r :: l = [r] ++ l from rfl, live_append, List.filter_append, List.flatMap_append,
      List.map_append, List.foldl_append]

end Walk

/-! ## The screen -/

section Screen

variable {m : Machine} {p : Nat} {es : List Entry}

theorem run_ls (ht : Tree m.fs) (hp : IsDirectory m.fs.disk p) :
    Program.run answer (ls p) m = (some (lsCalls (lookedAt m p)), m.looked) := by
  unfold ls
  rw [run_scratch_bind, run_syscall_bind, answer_look ht hp]
  dsimp only
  rw [if_pos rfl]
  exact Program.run_pure _ m.looked

theorem walked_shown (ht : Tree m.fs) (hp : IsDirectory m.fs.disk p) :
    live (walked (lookedAt m p) 0) = shown m p := by
  rw [walked_tiles (lookedAt_tiles ht hp) (by decide), live_append]
  rfl

/-- The calls are those of the strings of the listing. -/
theorem lsCalls_eq (ht : Tree m.fs) (hp : IsDirectory m.fs.disk p) (d : Display) :
    (lsCalls (lookedAt m p)).foldl Display.call d =
      ((listing (shown m p)).map putsCall).foldl Display.call d := by
  unfold lsCalls listing
  rw [List.foldl_append, calls_entries walked_recAt, walked_shown ht hp, List.map_append,
    List.foldl_append]
  rfl

theorem shown_lt (ht : Tree m.fs) (hp : IsDirectory m.fs.disk p) :
    ∀ e ∈ shown m p, e.name.length < 65536 := by
  rw [← walked_shown ht hp]
  intro e he
  obtain ⟨r, hr, rfl⟩ := List.mem_map.mp he
  exact name_lt (walked_recAt r (List.mem_filter.mp hr).1)

theorem entryText_lt {e : Entry} (h : e.name.length < 65536) :
    ∀ q ∈ entryText e, q.1.length < 4294967296 := by
  intro q hq
  rcases List.mem_cons.mp hq with rfl | hq
  · show (e.name.map UInt8.toInt8).length < _
    rw [List.length_map]
    omega
  · rw [List.mem_singleton.mp hq]
    split_ifs <;> decide

theorem listing_lt (h : ∀ e ∈ es, e.name.length < 65536) :
    ∀ q ∈ listing es, q.1.length < 4294967296 := by
  intro q hq
  rcases List.mem_append.mp hq with hq | hq
  · obtain ⟨e, he, hq⟩ := List.mem_flatMap.mp hq
    exact entryText_lt (h e (List.mem_filter.mp he).1) q hq
  · rw [List.mem_singleton.mp hq]
    decide

/-- The line ends in white. -/
theorem lastColor_listing (es : List Entry) : lastColor (textOf (listing es)) 0xF = 0xF := by
  unfold listing textOf
  rw [List.flatMap_append, lastColor_append]
  rfl

/-- Further entries are seen, unless they are dots. -/
theorem listing_append (es fs : List Entry) :
    listing (es ++ fs) = listing es ↔ ∀ e ∈ fs, ¬ Proper e := by
  unfold listing
  rw [List.append_left_inj, List.filter_append, List.flatMap_append, List.append_right_eq_self,
    List.flatMap_eq_nil_iff]
  constructor
  · intro h e he hP
    exact List.cons_ne_nil _ _ (h e (List.mem_filter.mpr ⟨he, decide_eq_true hP⟩))
  · intro h e he
    obtain ⟨he, hP⟩ := List.mem_filter.mp he
    exact absurd (of_decide_eq_true hP) (h e he)

theorem shown_one (ht : Tree m.fs) (hp : IsDirectory m.fs.disk p)
    (h1 : iBlocks (slot m.fs.disk p) = 1) : shown m p = entries m.fs.disk p ++ stale m := by
  obtain ⟨rest, heq, hrest⟩ := ht.entries_first hp
  rw [hrest h1, List.append_nil] at heq
  unfold shown stale
  rw [heq, walked_congr fun j hj => lookedAt_behind ht hp h1 hj]

end Screen

/-- On a screen that is cleared, `ls` shows what its walk meets: each pixel is that of a sheet with
    the entries on it, each with its mark, whatever the buffer held before. With one block that is
    the directory exactly if no stale record has a name of its own. -/
theorem ls_shows_directory {m : Machine} {p : Nat} (ht : Tree m.fs) (hp : IsDirectory m.fs.disk p)
    (k : Console) (hkey : k.keyboard.specialKey ≠ KEY_LEFT ∧ k.keyboard.specialKey ≠ KEY_RIGHT)
    (hfits : Sheet.empty.Fits (textOf (listing (shown m p)))) :
    ∃ calls k', Program.run answer (ls p) m = (some calls, m.looked) ∧
      loop (.clearScreen :: calls) ConsoleCall.run k = some k' ∧
      pixels k'.vga = (Sheet.empty.print (textOf (listing (shown m p)))).picture 0xF ∧
      (iBlocks (slot m.fs.disk p) = 1 →
        (listing (shown m p) = listing (entries m.fs.disk p) ↔ ∀ e ∈ stale m, ¬ Proper e)) := by
  obtain ⟨k', hrun, hpix⟩ :=
    calls_appear k hkey (lsCalls_eq ht hp) (listing_lt (shown_lt ht hp)) hfits
  rw [lastColor_listing] at hpix
  refine ⟨_, k', run_ls ht hp, hrun, hpix, fun h1 => ?_⟩
  rw [shown_one ht hp h1]
  exact listing_append _ _

/-- The root directory with `bin` in it, in a buffer of zeros. -/
theorem ls_shows_directory_bin : ∃ calls k',
    Program.run answer (ls 1) (Machine.zeros binFs) =
      (some calls, (Machine.zeros binFs).looked) ∧
    loop (.clearScreen :: calls) ConsoleCall.run ⟨whiteScreen, ⟨0, 0⟩, keyboardStateActivate⟩ =
      some k' ∧
    pixels k'.vga = (Sheet.empty.print [(98, 0xF), (105, 0xF), (110, 0xF), (47, 0xA), (32, 0xA),
      (10, 0xF), (10, 0xF)]).picture 0xF := by
  obtain ⟨ht, hroot, -, A, B, hAB, heq⟩ := binFs_root
  have h1 := binFs_blocks.1
  generalize binFs = fs at ht hroot heq h1 ⊢
  have hdots : ∀ e ∈ A ++ B, ¬ Proper e := by
    rw [hAB]
    exact not_proper_dot
  have hnone : ∀ l : List Entry, (∀ e ∈ l, ¬ Proper e) → (l.filter fun e => Proper e) = [] :=
    fun l hl => List.filter_eq_nil_iff.mpr fun e he => by simpa using hl e he
  have hshown : listing (shown (Machine.zeros fs) 1) = listing [⟨[98, 105, 110], 2, 2⟩] := by
    rw [@shown_one (Machine.zeros fs) 1 ht hroot h1, stale_zeros, List.append_nil]
    show listing (entries fs.disk 1) = _
    unfold listing
    rw [heq, List.filter_append, hnone A fun e he => hdots e (List.mem_append_left _ he),
      List.filter_cons, hnone B fun e he => hdots e (List.mem_append_right _ he)]
    rfl
  have hfits : Sheet.empty.Fits (textOf (listing [⟨[98, 105, 110], 2, 2⟩])) :=
    ⟨⟨by decide, by decide⟩, ⟨by decide, by decide⟩, ⟨by decide, by decide⟩, ⟨by decide, by decide⟩,
      ⟨by decide, by decide⟩, show 85 / 80 < 59 by decide, show 160 / 80 < 59 by decide, trivial⟩
  obtain ⟨calls, k', hrun, hloop, hpix, -⟩ := ls_shows_directory (m := Machine.zeros fs) ht hroot
    ⟨whiteScreen, ⟨0, 0⟩, keyboardStateActivate⟩ (by decide) (by rw [hshown]; exact hfits)
  rw [hshown] at hpix
  exact ⟨calls, k', hrun, hloop, hpix⟩

end LossOs.Os
