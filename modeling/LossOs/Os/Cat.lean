/-
  `commands/cat.c`, up to the screen.

  `cat` reads a file into a block buffer of its own, which it has not cleared, and prints up to the
  first NUL in it. So it tells what the store has under the name (`cat_shows_item`), but of a file
  it shows the text with what lies behind it in the buffer: exactly the text, if a NUL happens to
  lie there. Of a file that is too large it says nothing, for it looks for a -1 where one byte was
  stored in a zero. What a file of more than 8192 bytes overwrites is left out.
-/
import LossOs.Ext2.StoreRefines
import LossOs.Lib.CString
import LossOs.Os.Ls
import LossOs.Shell.Cp
import LossOs.Shell.Find

namespace LossOs.Os

open LossOs.Lib LossOs.Ext2 LossOs.Shell
open LossOs.Drivers (Console ConsoleCall Display KEY_LEFT KEY_RIGHT Sheet call_at calls_appear
  keyboardStateActivate lastColor map_getD pixels putsCall textOf whiteScreen)

/-! ## The command -/

/-- What `cat` prints when its buffer is filled. The string ends in the buffer. -/
def catFile (bf : Mem) : Program Op Op.Reply (List ConsoleCall) :=
  (strlen 8192 bf).elim Program.stuck fun n =>
    pure [.puts (some fun i => (bf i).toInt8) (UInt32.ofNat n) 0xF, putsCall ([10, 10], 0)]

/-- What it does when the file is read. -/
def catReply (filename : List UInt8) (retCode : BitVec 32) (bf : Mem) :
    Program Op Op.Reply (List ConsoleCall) :=
  if retCode = 0 then catFile bf
  else if retCode = 1 then pure [putsCall (message "cat: read failure\n\n", 0xC)]
  else if retCode = 2 then
    pure [putsCall (message "cat: file not found: ", 0x4),
      putsCall (filename.map UInt8.toInt8, 0xF), putsCall ([10, 10], 0)]
  else if retCode = -1 then pure [putsCall (message "cat: invalid error\n\n", 0xC)]
  else pure []

/-- `cat`: the calls of `puts` that it makes. -/
def cat (currentInode : Nat) (argv : List (List UInt8)) :
    Program Op Op.Reply (List ConsoleCall) :=
  if currentInode = 2 then pure [putsCall (message "cat: cannot access /bin directory\n\n", 0xC)]
  else if 2 ≤ argv.length then do
    let filename := argv.getD 1 []
    let bf ← scratch
    let (code, bf) ← syscall (.read (ioRequest currentInode filename bf 0x100000 false))
    catReply filename (storeResult 0 (BitVec.ofInt 8 code)) bf
  else pure [putsCall (message "Usage: cat <file>\n\n", 0xF)]

/-! ## What is shown of an item -/

/-- The buffer with the bytes of a file in it. -/
def filled (bs : List UInt8) (bf : Mem) : Mem := fun k => bs.getD k (bf k)

/-- The string that starts with the bytes of a file. -/
def fileText (bs : List UInt8) (bf : Mem) : List UInt8 := cString (bytes (filled bs bf) 0 8192)

/-- What is printed for the items of a name, the first of which is read. -/
def itemText (name : List UInt8) (bf : Mem) : List (Item Nat UInt8) → List (List Int8 × UInt8)
  | [] => [(message "cat: file not found: ", 0x4), (name.map UInt8.toInt8, 0xF), ([10, 10], 0)]
  | .dir _ :: _ => [(message "cat: read failure\n\n", 0xC)]
  | .file size bs :: _ =>
      if size ≤ 0x100000 then [((fileText bs bf).map UInt8.toInt8, 0xF), ([10, 10], 0)] else []

/-- What is printed for the name in directory `p`. -/
noncomputable def catText (m : Machine) (p : Nat) (name : List UInt8) :
    List (List Int8 × UInt8) := itemText name (m.user 0) ((storeOf m.fs).items p name)

/-- A file that is read stays in the buffer, and a NUL lies in what it leaves of this. -/
def InBuffer (bf : Mem) : List (Item Nat UInt8) → Prop
  | .file size bs :: _ => size ≤ 0x100000 → size ≤ 8192 ∧ 0 ∈ bytes (filled bs bf) 0 8192
  | _ => True

theorem toInt8_injective : Function.Injective UInt8.toInt8 := fun a b h => by
  simpa using congrArg Int8.toUInt8 h

section Text

variable {m : Mem} {bs : List UInt8} {bf : Mem} {name : List UInt8} {size : Nat}
  {l : List (Item Nat UInt8)}

theorem itemText_file (h : size ≤ 0x100000) : itemText name bf (.file size bs :: l) =
    [((fileText bs bf).map UInt8.toInt8, 0xF), ([10, 10], 0)] := if_pos h

theorem itemText_large (h : ¬ size ≤ 0x100000) : itemText name bf (.file size bs :: l) = [] :=
  if_neg h

theorem cString_le (m : Mem) (n : Nat) : (cString (bytes m 0 n)).length ≤ n := by
  have hle : (cString (bytes m 0 n)).length ≤ (bytes m 0 n).length :=
    (List.takeWhile_sublist _).length_le
  rwa [length_bytes] at hle

theorem fileText_le : (fileText bs bf).length ≤ 8192 := by
  unfold fileText
  exact cString_le _ _

/-- The string in a buffer that has a NUL. -/
theorem string_bytes {n : Nat} (h : 0 ∈ bytes m 0 n) :
    LossOs.Lib.IsString m (cString (bytes m 0 n)) ∧ (cString (bytes m 0 n)).length < n := by
  obtain ⟨s, rest, heq, hno⟩ := List.eq_append_cons_of_mem h
  have hs : cString (bytes m 0 n) = s := by
    rw [heq, cString_append hno]
    exact List.append_nil s
  have hlen := congrArg List.length heq
  rw [length_bytes, List.length_append, List.length_cons] at hlen
  rw [hs]
  exact ⟨LossOs.Lib.IsString.of_bytes heq hno, by omega⟩

/-- The text of the file is shown, and nothing else, exactly if a NUL lies behind it. -/
theorem fileText_eq_iff (hno : 0 ∉ bs) (hlt : bs.length < 8192) (bf : Mem) :
    fileText bs bf = bs ↔ bf bs.length = 0 := by
  obtain ⟨k, hk⟩ : ∃ k, 8192 = bs.length + (1 + k) := ⟨8191 - bs.length, by omega⟩
  have hbs : bytes (filled bs bf) 0 bs.length = bs := by
    show (List.range bs.length).map (fun i => bs.getD (0 + i) (bf (0 + i))) = bs
    refine List.ext_getElem (by rw [List.length_map, List.length_range]) fun j hj hj' => ?_
    rw [List.getElem_map, List.getElem_range, Nat.zero_add, List.getD_eq_getElem _ _ hj']
  have hbehind : filled bs bf (0 + bs.length) = bf bs.length := by
    unfold filled
    rw [Nat.zero_add, List.getD_eq_default _ _ (Nat.le_refl _)]
  unfold fileText
  rw [hk, bytes_append, hbs, cString_append hno, List.append_right_eq_self, bytes_append]
  show cString (filled bs bf (0 + bs.length) :: _) = [] ↔ _
  rw [hbehind]
  unfold cString
  by_cases h0 : bf bs.length = 0
  · rw [List.takeWhile_cons_of_neg (by simpa using h0)]
    exact iff_of_true rfl h0
  · rw [List.takeWhile_cons_of_pos (by simpa using h0)]
    exact iff_of_false (List.cons_ne_nil _ _) h0

end Text

/-! ## What is read -/

section Reading

variable {m : Machine} {p : Nat} {name : List UInt8} {bf : Mem}

/-- The code and the buffer, by the items of the name. -/
def itemReply (bf : Mem) : List (Item Nat UInt8) → Int × Mem
  | [] => (2, bf)
  | .dir _ :: _ => (1, bf)
  | .file size bs :: _ => if size ≤ 0x100000 then (0, filled bs bf) else (-1, bf)

theorem read_item {fs : Fs} (ht : Tree fs) (hp : IsDirectory fs.disk p)
    (hname : name.length < 256) (bf : Mem) :
    LossOs.Ext2.read (ioRequest p name bf 0x100000 false) fs =
      itemReply bf ((storeOf fs).items p name) := by
  have hparent : (ioRequest p name bf 0x100000 false).parentInode.toNat = p :=
    ioRequest_parent hp.isInode
  have hanswer := @Tree.answers _ ht (ioRequest p name bf 0x100000 false)
    (by rw [hparent]; exact hp.isInode.2)
  have hnamed : (storeOf fs).named (ioRequest p name bf 0x100000 false) =
      (storeOf fs).items p name := by
    unfold FileStore.named
    rw [hparent, ioRequest_name hname]
  generalize LossOs.Ext2.read (ioRequest p name bf 0x100000 false) fs = r at hanswer ⊢
  rw [← hnamed]
  cases hanswer with
  | notDir hno =>
    rw [hparent] at hno
    exact absurd hp hno
  | absent _ hitems => rw [hitems]; rfl
  | directory _ hitems => rw [hitems]; rfl
  | tooLarge _ hitems hsize =>
    rw [hitems]
    exact (if_neg (Nat.not_le.mpr hsize)).symm
  | found _ hitems hsize =>
    rw [hitems]
    exact (if_pos hsize).symm

/-- What each code makes `cat` do: -1 comes as 255, of which it says nothing. -/
theorem catReply_code (name : List UInt8) (bf : Mem) :
    catReply name (storeResult 0 (BitVec.ofInt 8 0)) bf = catFile bf ∧
      catReply name (storeResult 0 (BitVec.ofInt 8 2)) bf =
        pure ((itemText name bf []).map putsCall) ∧
      catReply name (storeResult 0 (BitVec.ofInt 8 1)) bf =
        pure [putsCall (message "cat: read failure\n\n", 0xC)] ∧
      catReply name (storeResult 0 (BitVec.ofInt 8 (-1))) bf = pure [] := by
  unfold catReply
  refine ⟨if_pos (by decide), ?_, ?_, ?_⟩
  · rw [if_neg (by decide), if_neg (by decide), if_pos (by decide)]
    rfl
  · rw [if_neg (by decide), if_pos (by decide)]
  · rw [if_neg (by decide), if_neg (by decide), if_neg (by decide), if_neg (by decide)]

/-- The buffer is printed as the string that lies in it. -/
theorem run_catFile {s : List UInt8} (hs : LossOs.Lib.IsString bf s) (hlt : s.length < 8192) :
    ∃ calls, Program.run answer (catFile bf) m = (some calls, m) ∧
      ∀ d : Display, calls.foldl Display.call d =
        ([(s.map UInt8.toInt8, 0xF), ([10, 10], 0)].map putsCall).foldl Display.call d := by
  have hlen : (s.map UInt8.toInt8).length = s.length := List.length_map _
  have hlt' : (s.map UInt8.toInt8).length < 4294967296 := by omega
  have hstring : (List.range (s.map UInt8.toInt8).length).map (fun i => (bf i).toInt8) =
      s.map UInt8.toInt8 := by
    refine List.ext_getElem (by rw [List.length_map, List.length_range]) fun i hi hi' => ?_
    rw [hlen] at hi'
    rw [List.getElem_map, List.getElem_range, List.getElem_map,
      (holds_iff.mp hs.holds).1 i hi']
  refine ⟨[.puts (some fun i => (bf i).toInt8) (UInt32.ofNat s.length) 0xF,
    putsCall ([10, 10], 0)], ?_, fun d => ?_⟩
  · unfold catFile
    rw [strlen_eq hs hlt]
    exact Program.run_pure _ m
  · have hcall := call_at (d := d) hlt' hstring 0xF
    rw [hlen] at hcall
    exact congrArg (fun d : Display => d.call (putsCall ([10, 10], 0)))
      (hcall.trans (call_at hlt' (map_getD _) 0xF).symm)

/-- Every kind of item has its own calls, which do what its strings do. -/
theorem run_reply (name : List UInt8) (m : Machine) {items : List (Item Nat UInt8)}
    (hin : InBuffer bf items) :
    ∃ calls, Program.run answer (catReply name
        (storeResult 0 (BitVec.ofInt 8 (itemReply bf items).1)) (itemReply bf items).2) m =
        (some calls, m) ∧
      ∀ d : Display, calls.foldl Display.call d =
        ((itemText name bf items).map putsCall).foldl Display.call d := by
  obtain ⟨hfile, hmissing, hdir, hlarge⟩ := catReply_code name (itemReply bf items).2
  match items with
  | [] =>
    refine ⟨_, ?_, fun _ => rfl⟩
    exact (congrArg (Program.run answer · m) hmissing).trans (Program.run_pure _ m)
  | .dir _ :: _ =>
    refine ⟨_, ?_, fun _ => rfl⟩
    exact (congrArg (Program.run answer · m) hdir).trans (Program.run_pure _ m)
  | .file size bs :: l =>
    by_cases hsize : size ≤ 0x100000
    · obtain ⟨-, hnul⟩ := hin hsize
      obtain ⟨hs, hlt⟩ := string_bytes hnul
      obtain ⟨calls, hrun, hcalls⟩ := run_catFile (m := m) hs hlt
      have hreply : itemReply bf (.file size bs :: l) = (0, filled bs bf) := if_pos hsize
      rw [hreply] at hfile ⊢
      rw [itemText_file hsize]
      exact ⟨calls, (congrArg (Program.run answer · m) hfile).trans hrun, hcalls⟩
    · have hreply : itemReply bf (.file size bs :: l) = (-1, bf) := if_neg hsize
      rw [hreply] at hlarge ⊢
      rw [itemText_large hsize]
      exact ⟨[], (congrArg (Program.run answer · m) hlarge).trans (Program.run_pure _ m),
        fun _ => rfl⟩

end Reading

/-! ## The screen -/

theorem run_cat {m : Machine} {p : Nat} {argv : List (List UInt8)} (ht : Tree m.fs)
    (hp : IsDirectory m.fs.disk p) (h2 : p ≠ 2) (hargc : 2 ≤ argv.length)
    (hname : (argv.getD 1 []).length < 256)
    (hin : InBuffer (m.user 0) ((storeOf m.fs).items p (argv.getD 1 []))) :
    ∃ calls, Program.run answer (cat p argv) m = (some calls, m.next.enter) ∧
      ∀ d : Display, calls.foldl Display.call d =
        ((catText m p (argv.getD 1 [])).map putsCall).foldl Display.call d := by
  have ht' : Tree m.next.enter.fs := ht.withStack (m.kernel 0)
  have hp' : IsDirectory m.next.enter.fs.disk p := hp
  have hread := read_item ht' hp' hname (m.user 0)
  have hstore : storeOf m.next.enter.fs = storeOf m.fs := storeOf_withStack _ _
  rw [hstore] at hread
  obtain ⟨calls, hrun, hcalls⟩ := run_reply (argv.getD 1 []) m.next.enter hin
  refine ⟨calls, ?_, hcalls⟩
  rw [← hread] at hrun
  unfold cat
  rw [if_neg h2, if_pos hargc, run_scratch_bind, run_syscall_bind]
  exact hrun

theorem itemText_lt {name : List UInt8} (hname : name.length < 256) (bf : Mem)
    (items : List (Item Nat UInt8)) : ∀ q ∈ itemText name bf items, q.1.length < 4294967296 := by
  have hmap : ∀ l : List UInt8, l.length ≤ 8192 → (l.map UInt8.toInt8).length < 4294967296 :=
    fun l hl => by
      rw [List.length_map]
      omega
  match items with
  | [] =>
    intro q hq
    rcases List.mem_cons.mp hq with rfl | hq
    · decide +kernel
    rcases List.mem_cons.mp hq with rfl | hq
    · exact hmap name (by omega)
    · rw [List.mem_singleton.mp hq]
      decide
  | .dir _ :: _ =>
    intro q hq
    rw [List.mem_singleton.mp hq]
    decide +kernel
  | .file size bs :: l =>
    by_cases hsize : size ≤ 0x100000
    · rw [itemText_file hsize]
      intro q hq
      rcases List.mem_cons.mp hq with rfl | hq
      · dsimp only
        exact hmap (fileText bs bf) fileText_le
      · rw [List.mem_singleton.mp hq]
        decide
    · rw [itemText_large hsize]
      exact fun q hq => absurd hq List.not_mem_nil

/-- On a screen that is cleared, `cat` shows what the store has under the name, as long as a file
    that is read stays in the buffer and leaves a NUL in it; and of a file it shows its text alone
    exactly if a NUL lies behind it. -/
theorem cat_shows_item {m : Machine} {p : Nat} {argv : List (List UInt8)} (ht : Tree m.fs)
    (hp : IsDirectory m.fs.disk p) (h2 : p ≠ 2) (hargc : 2 ≤ argv.length)
    (hname : (argv.getD 1 []).length < 256)
    (hin : InBuffer (m.user 0) ((storeOf m.fs).items p (argv.getD 1 []))) (k : Console)
    (hkey : k.keyboard.specialKey ≠ KEY_LEFT ∧ k.keyboard.specialKey ≠ KEY_RIGHT)
    (hfits : Sheet.empty.Fits (textOf (catText m p (argv.getD 1 [])))) :
    ∃ calls k', Program.run answer (cat p argv) m = (some calls, m.next.enter) ∧
      loop (.clearScreen :: calls) ConsoleCall.run k = some k' ∧
      pixels k'.vga = (Sheet.empty.print (textOf (catText m p (argv.getD 1 [])))).picture
        (lastColor (textOf (catText m p (argv.getD 1 []))) 0xF) ∧
      ∀ size bs l, (storeOf m.fs).items p (argv.getD 1 []) = .file size bs :: l →
        size ≤ 0x100000 → bs.length < 8192 → 0 ∉ bs →
        (catText m p (argv.getD 1 []) = [(bs.map UInt8.toInt8, 0xF), ([10, 10], 0)] ↔
          m.user 0 bs.length = 0) := by
  obtain ⟨calls, hrun, hcalls⟩ := run_cat ht hp h2 hargc hname hin
  obtain ⟨k', hloop, hpix⟩ := calls_appear k hkey hcalls (itemText_lt hname _ _) hfits
  refine ⟨calls, k', hrun, hloop, hpix, fun size bs l hitems hsize hlt hno => ?_⟩
  unfold catText
  rw [hitems, itemText_file hsize, ← fileText_eq_iff hno hlt (m.user 0)]
  constructor
  · intro h
    exact List.map_injective_iff.mpr toInt8_injective (Prod.mk.inj (List.cons.inj h).1).1
  · intro h
    rw [h]

/-- `Hi`, in a file of the root directory. -/
def greeting : EXT2DriverRequest := rootRequest [97] [72, 105] false

theorem greeting_stored {fs : Fs} (h : Formatted fs) : Tree (write greeting fs).2 ∧
    ∃ l, (storeOf (write greeting fs).2).items 1 [97] = .file 2 [72, 105] :: l := by
  have hok : Careful (.write greeting) fs := h.careful rfl (by decide) (by decide)
  have h0 := (h.write_first greeting rfl (by decide) (by decide)).1
  obtain ⟨k, -, hs, hfull⟩ := h.tree.write_file hok rfl h0
  obtain rfl := hfull 2 h.firstFreeInode (h.fits rfl (by decide) (by decide) (by decide)
    h.firstFreeInode)
  have htop : ((storeOf fs).addFile greeting greeting.bufferSize.toNat).items 1 [97] =
      .file 2 [72, 105] :: (storeOf fs).items 1 [97] :=
    Store.push_items.trans (if_pos ⟨rfl, by decide⟩)
  exact ⟨h.tree.run hok, _, (congrArg (fun s => Store.items s 1 [97]) hs).trans htop⟩

/-- It is shown from a buffer of zeros. -/
theorem cat_shows_item_greeting : ∃ calls k',
    Program.run answer (cat 1 [[99, 97, 116], [97]]) (Machine.zeros (write greeting freshFs).2) =
      (some calls, (Machine.zeros (write greeting freshFs).2).next.enter) ∧
    loop (.clearScreen :: calls) ConsoleCall.run ⟨whiteScreen, ⟨0, 0⟩, keyboardStateActivate⟩ =
      some k' ∧
    pixels k'.vga =
      (Sheet.empty.print [(72, 0xF), (105, 0xF), (10, 0), (10, 0)]).picture 0 := by
  obtain ⟨ht, l, hitems⟩ := greeting_stored isFresh_freshFs.formatted
  generalize (write greeting freshFs).2 = fs at ht hitems ⊢
  have hin : InBuffer (fun _ => 0) ((storeOf fs).items 1 [97]) := by
    rw [hitems]
    exact fun _ => ⟨by decide, List.mem_map.mpr ⟨2, List.mem_range.mpr (by decide), rfl⟩⟩
  have htext : catText (Machine.zeros fs) 1 [97] = [([72, 105], 0xF), ([10, 10], 0)] := by
    show itemText [97] (fun _ => 0) ((storeOf fs).items 1 [97]) = _
    rw [hitems, itemText_file (by decide), (fileText_eq_iff (by decide) (by decide) _).mpr rfl]
    rfl
  have hfits : Sheet.empty.Fits (textOf [([72, 105], 0xF), ([10, 10], 0)]) :=
    ⟨⟨by decide, by decide⟩, ⟨by decide, by decide⟩, show 82 / 80 < 59 by decide,
      show 160 / 80 < 59 by decide, trivial⟩
  obtain ⟨calls, k', hrun, hloop, hpix, -⟩ := @cat_shows_item (Machine.zeros fs) 1
    [[99, 97, 116], [97]] ht ht.sound.rooted.rootDir (by decide) (by decide) (by decide) hin
    ⟨whiteScreen, ⟨0, 0⟩, keyboardStateActivate⟩ (by decide) (htext ▸ hfits)
  refine ⟨calls, k', hrun, hloop, hpix.trans ?_⟩
  show (Sheet.empty.print (textOf (catText (Machine.zeros fs) 1 [97]))).picture
    (lastColor (textOf (catText (Machine.zeros fs) 1 [97])) 0xF) = _
  rw [htext]
  rfl

end LossOs.Os
