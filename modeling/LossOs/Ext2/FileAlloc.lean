/-
  `allocate_node_blocks`: the file it lays out.

  Each of its loops takes a run of free blocks and fills it with consecutive pieces of the
  data (`Taken`), as far as the request and the free blocks go (`allocPtrs_spec`,
  `allocDouble_spec`, `allocDirect_spec`). Put together they build a tree of the shape for
  `i_blocks` blocks, which is full unless no block is left from the preferred group on
  (`allocateNodeBlocks_spec`), that is, when that many blocks are free there
  (`Laid.full_iff`).
-/
import LossOs.Ext2.FileTree

namespace LossOs.Ext2

open LossOs.Lib

/-! ## Free blocks -/

theorem Grab.perm {fs fs' : Fs} {L M : List Nat} (h : Grab fs fs' L) (hp : L.Perm M) :
    Grab fs fs' M where
  nodup := hp.nodup_iff.mp h.nodup
  data := fun b hb => h.data b (hp.mem_iff.mpr hb)
  fresh := fun b hb => h.fresh b (hp.mem_iff.mpr hb)
  used := fun b hb => by rw [h.used b hb, decide_eq_decide.mpr hp.mem_iff]
  frame := fun n hn => h.frame n fun hc => hn (hp.mem_iff.mp hc)
  tail := h.tail
  desc := h.desc
  super := by rw [h.super, hp.length_eq]
  stack := h.stack
  counters := h.counters

/-- The free blocks from group `g` on. -/
def freeFrom (d : Disk) (g : Nat) : Finset Nat :=
  (Finset.range 2048).filter fun b => 256 * g ≤ b ∧ blockUsed d b = false

theorem mem_freeFrom {d : Disk} {g b : Nat} :
    b ∈ freeFrom d g ↔ b < 2048 ∧ 256 * g ≤ b ∧ blockUsed d b = false := by
  simp [freeFrom]

theorem Exhausted.nil {fs fs' : Fs} {L : List Nat} {g : Nat} (he : Exhausted fs.disk g)
    (h : Grab fs fs' L) (hge : ∀ b ∈ L, 256 * g ≤ b) : L = [] := by
  apply List.eq_nil_iff_forall_not_mem.mpr
  intro b hb
  have := h.fresh b hb
  rw [he b (h.data b hb).1 (hge b hb)] at this
  cases this

/-! ## Pieces of the data -/

/-- How many bytes of block `a` of a file come from the request. -/
def chunkLen (node : Mem) (a : Nat) : Nat :=
  let toCopy := if a = iBlocks node - 1 then iSize node % 512 else 512
  if toCopy = 0 then 512 else toCopy

/-- Block `a` of a file: the bytes of the request, then zeros. -/
def chunk (data node : Mem) (a : Nat) : Block := fun o =>
  if o < chunkLen node a then data (a * 512 + o) else 0

theorem blockOf_dataBuf (data node : Mem) (a : Nat) (fs : Fs) :
    blockOf (dataBuf data node a fs) = chunk data node a := by
  funext o
  show blit fs.zeroBuf 0 (view data (a * 512)) (chunkLen node a) o = _
  unfold chunk
  by_cases h : (o : Nat) < chunkLen node a
  · rw [if_pos h, blit_of_mem (Nat.zero_le _) (by omega)]
    rfl
  · rw [if_neg h, blit_of_not_mem (by omega), zeroBuf_apply o.isLt]

theorem chunk_congr {node node' : Mem} (h : ∀ o < 10, node' o = node o) (data : Mem) (a : Nat) :
    chunk data node' a = chunk data node a := by
  unfold chunk chunkLen
  rw [iBlocks_congr_low h, iSize_congr_low h]

/-- The blocks `es` hold the data from piece `a` on. -/
def Filled (data node : Mem) (a : Nat) (d : Disk) (es : List Nat) : Prop :=
  ∀ k b, es[k]? = some b → d b = chunk data node (a + k)

theorem Filled.nil (data node : Mem) (a : Nat) (d : Disk) : Filled data node a d [] := by
  intro k b h; simp at h

theorem Filled.cons {data node : Mem} {a b : Nat} {d : Disk} {es : List Nat}
    (hb : d b = chunk data node a) (h : Filled data node (a + 1) d es) :
    Filled data node a d (b :: es) := by
  intro k c hc
  cases k with
  | zero =>
    obtain rfl : b = c := by simpa using hc
    exact hb
  | succ k =>
    rw [h k c (by simpa using hc)]
    congr 1; omega

theorem Filled.append {data node : Mem} {a : Nat} {d : Disk} {es es' : List Nat}
    (h : Filled data node a d es) (h' : Filled data node (a + es.length) d es') :
    Filled data node a d (es ++ es') := by
  intro k b hb
  by_cases hk : k < es.length
  · rw [List.getElem?_append_left hk] at hb
    exact h k b hb
  · rw [List.getElem?_append_right (by omega)] at hb
    rw [h' _ b hb]
    congr 1; omega

/-- From `fs` to `fs'` the blocks `es` were taken for the pieces of data from `a` on. -/
structure Taken (data node : Mem) (pref : Nat) (fs fs' : Fs) (a : Nat) (es L : List Nat) :
    Prop where
  grab : Grab fs fs' L
  sub : ∀ b ∈ es, b ∈ L
  above : ∀ b ∈ L, 256 * pref ≤ b
  filled : Filled data node a fs'.disk es

section Taken

variable {data node node' : Mem} {pref a : Nat} {fs fs₁ fs₂ fs' : Fs} {es es' L M : List Nat}

theorem Taken.refl (data node : Mem) (pref a : Nat) (fs : Fs) :
    Taken data node pref fs fs a [] [] where
  grab := Grab.refl fs
  sub := by simp
  above := by simp
  filled := Filled.nil _ _ _ _

/-- Blocks that were taken before keep what they hold. -/
theorem Taken.kept (h : Taken data node pref fs fs₁ a es L) (h' : Grab fs₁ fs₂ M) :
    Filled data node a fs₂.disk es := by
  intro k b hb
  have hL : b ∈ L := h.sub b (List.mem_of_getElem? hb)
  rw [h'.data_eq (h.grab.data b hL) (h'.not_mem_of_used (h.grab.used_of_mem hL))]
  exact h.filled k b hb

theorem Taken.trans (h : Taken data node pref fs fs₁ a es L)
    (h' : Taken data node pref fs₁ fs₂ (a + es.length) es' M) :
    Taken data node pref fs fs₂ a (es ++ es') (L ++ M) where
  grab := h.grab.trans h'.grab
  sub := fun b hb => by
    rcases List.mem_append.mp hb with hb | hb
    · exact List.mem_append_left _ (h.sub b hb)
    · exact List.mem_append_right _ (h'.sub b hb)
  above := fun b hb => (List.mem_append.mp hb).elim (h.above b) (h'.above b)
  filled := (h.kept h'.grab).append h'.filled

/-- One block for one piece. -/
theorem Taken.one (data node : Mem) (a : Nat) {b : Nat} (hge : 256 * pref ≤ b)
    (h : Grab fs fs₁ [b]) :
    Taken data node pref fs (fs₁.writeBlocks b (dataBuf data node a fs₁)) a [b] [b] where
  grab := h.writeBlocks (List.mem_singleton_self b) _
  sub := fun _ hb => hb
  above := fun c hc => by rw [List.mem_singleton.mp hc]; exact hge
  filled := Filled.cons (by rw [writeBlocks_disk, Function.update_self, blockOf_dataBuf])
    (Filled.nil _ _ _ _)

/-- Writing a block that was taken, but not for data. -/
theorem Taken.writeBlocks (h : Taken data node pref fs fs' a es L) {b : Nat} (hb : b ∈ L)
    (hes : b ∉ es) (buf : Mem) : Taken data node pref fs (fs'.writeBlocks b buf) a es L where
  grab := h.grab.writeBlocks hb buf
  sub := h.sub
  above := h.above
  filled := fun k c hc => by
    have hne : c ≠ b := fun hcb => hes (hcb ▸ List.mem_of_getElem? hc)
    rw [writeBlocks_disk, Function.update_of_ne hne]
    exact h.filled k c hc

theorem Taken.congr (h : Taken data node' pref fs fs' a es L) (hn : ∀ o < 10, node' o = node o) :
    Taken data node pref fs fs' a es L where
  grab := h.grab
  sub := h.sub
  above := h.above
  filled := fun k b hb => by rw [h.filled k b hb, chunk_congr hn]

end Taken

/-! ## Runs of pointers -/

/-- The pointers `g` are `f` with the numbers `es` from slot `i` on. -/
def Slots (f g : Nat → Nat) (i : Nat) (es : List Nat) : Prop :=
  ∀ j, g j = if i ≤ j ∧ j < i + es.length then es.getD (j - i) 0 else f j

section Slots

variable {f f₁ g : Nat → Nat} {i b : Nat} {es : List Nat}

theorem Slots.nil (f : Nat → Nat) (i : Nat) : Slots f f i [] := by
  intro j
  rw [if_neg]
  simp only [List.length_nil]; omega

theorem Slots.cons (hf : ∀ j, f₁ j = if j = i then b else f j) (h : Slots f₁ g (i + 1) es) :
    Slots f g i (b :: es) := by
  intro j
  rw [h j, hf j, List.length_cons]
  by_cases hj : j = i
  · subst hj
    rw [if_neg (by omega), if_pos rfl, if_pos (by omega), Nat.sub_self, List.getD_cons_zero]
  · rw [if_neg hj]
    by_cases hin : i + 1 ≤ j ∧ j < i + 1 + es.length
    · rw [if_pos hin, if_pos (by omega), show j - i = (j - (i + 1)) + 1 by omega,
        List.getD_cons_succ]
    · rw [if_neg hin, if_neg (by omega)]

end Slots

theorem ptr_wr32_data {b : Nat} (hb : IsData b) (m : Mem) (i j : Nat) :
    ptr (wr32 m (i * 4) b) j = if j = i then b else ptr m j := by
  rw [ptr_wr32, Nat.mod_eq_of_lt (by have := hb.1; omega)]

theorem iBlock_setIBlock_data {b : Nat} (hb : IsData b) (node : Mem) (i j : Nat) :
    iBlock (setIBlock node i b) j = if j = i then b else iBlock node j := by
  rw [iBlock_setIBlock, Nat.mod_eq_of_lt (by have := hb.1; omega)]

/-! ## One pointer block -/

/-- The loop that fills a pointer block takes the blocks `es`, stores their numbers from
    slot `ptrIdx` on, and stops early only when no block is left. -/
theorem allocPtrs_spec (data node : Mem) (pref : Nat) :
    ∀ (k ptrIdx : Nat) (buf : Mem) (a : Nat) {fs : Fs}, Ready fs →
      ∃ es buf' fs', allocPtrs data node pref k ptrIdx buf a fs = (buf', a + es.length, fs') ∧
        Taken data node pref fs fs' a es es ∧ es.length ≤ min k (iBlocks node - a) ∧
        (es.length = min k (iBlocks node - a) ∨ Exhausted fs'.disk pref) ∧
        Slots (ptr buf) (ptr buf') ptrIdx es := by
  intro k
  induction k with
  | zero =>
    intro ptrIdx buf a fs _
    refine ⟨[], buf, fs, rfl, Taken.refl .., Nat.zero_le _, Or.inl ?_, Slots.nil _ _⟩
    simp
  | succ k ih =>
    intro ptrIdx buf a fs hr
    have hstop : ∀ (h : iBlocks node - a = 0 ∨ Exhausted fs.disk pref),
        ∃ es buf' fs', (buf, a, fs) = (buf', a + es.length, fs') ∧
          Taken data node pref fs fs' a es es ∧ es.length ≤ min (k + 1) (iBlocks node - a) ∧
          (es.length = min (k + 1) (iBlocks node - a) ∨ Exhausted fs'.disk pref) ∧
          Slots (ptr buf) (ptr buf') ptrIdx es := by
      intro h
      refine ⟨[], buf, fs, rfl, Taken.refl .., Nat.zero_le _, ?_, Slots.nil _ _⟩
      exact h.imp (fun h => by rw [h]; rfl) id
    unfold allocPtrs
    by_cases ha : a < iBlocks node
    · rw [if_pos ha]
      rcases searchBlock_spec hr pref with ⟨hnone, hex⟩ | ⟨b, fs₁, hsome, hge, hgrab, -⟩
      · rw [hnone]
        exact hstop (Or.inr hex)
      · rw [hsome]
        have hone := Taken.one data node a hge hgrab
        have hb := hgrab.data b (List.mem_singleton_self b)
        obtain ⟨es, buf', fs', heq, htk, hle, hfull, hptr⟩ :=
          ih (ptrIdx + 1) (wr32 buf (ptrIdx * 4) b) (a + 1) (hone.grab.ready hr)
        refine ⟨b :: es, buf', fs', ?_, hone.trans htk, ?_, ?_, hptr.cons (ptr_wr32_data hb _ _)⟩
        · dsimp only
          rw [heq, List.length_cons, Nat.add_assoc, Nat.add_comm 1]
        · rw [List.length_cons]; omega
        · rw [List.length_cons]
          exact hfull.imp (fun h => by omega) id
    · rw [if_neg ha]
      exact hstop (Or.inl (by omega))

/-- A pointer block filled from its first slot on. -/
theorem ptrBlock_of_slots {d : Disk} {b : Nat} {es : List Nat} (buf : Mem) (fs : Fs)
    (hd : d b = blockOf buf) (hlen : es.length ≤ 128) (h : Slots (ptr fs.zeroBuf) (ptr buf) 0 es) :
    PtrBlock d b es := by
  refine ⟨hlen, fun j hj => ?_⟩
  rw [hd, ptr_congr (fun o ho => mem_blockOf ho) hj, h j]
  by_cases hje : j < es.length
  · rw [if_pos (by omega)]
    rfl
  · rw [if_neg (by omega), List.getD_eq_default _ _ (by omega)]
    exact rd32_eq_zero fun o _ ho => zeroBuf_apply (by omega)

theorem PtrBlock.grab {fs fs' : Fs} {b : Nat} {es L : List Nat} (h : PtrBlock fs.disk b es)
    (hg : Grab fs fs' L) (hb : IsData b) (hu : blockUsed fs.disk b = true) :
    PtrBlock fs'.disk b es := by
  unfold PtrBlock
  rw [hg.data_eq hb (hg.not_mem_of_used hu)]
  exact h

/-- From `fs` to `fs'` the pointer block `b` was taken with the data blocks `es` it points
    to, as far as the request and the free blocks go. -/
structure TakenUnder (data node : Mem) (pref : Nat) (fs fs' : Fs) (a b : Nat) (es : List Nat) :
    Prop where
  taken : Taken data node pref fs fs' a es (b :: es)
  len : es.length ≤ min 128 (iBlocks node - a)
  full : es.length = min 128 (iBlocks node - a) ∨ Exhausted fs'.disk pref
  ptrs : PtrBlock fs'.disk b es

/-- One turn under a double indirect block: the pointer block `b` and the blocks it points
    to. -/
theorem takeIndirect (data node : Mem) (a : Nat) {pref b : Nat} {fs fs₁ : Fs} (hr : Ready fs)
    (hge : 256 * pref ≤ b) (hgrab : Grab fs fs₁ [b]) :
    ∃ es buf fs₂, allocPtrs data node pref 128 0 fs₁.zeroBuf a fs₁ = (buf, a + es.length, fs₂) ∧
      TakenUnder data node pref fs (fs₂.writeBlocks b buf) a b es := by
  obtain ⟨es, buf, fs₂, heq, htk, hle, hfull, hptr⟩ :=
    allocPtrs_spec data node pref 128 0 fs₁.zeroBuf a (hgrab.ready hr)
  have hptrOnly : Taken data node pref fs fs₁ a [] [b] :=
    ⟨hgrab, by simp, fun c hc => by rw [List.mem_singleton.mp hc]; exact hge, Filled.nil _ _ _ _⟩
  have hboth := hptrOnly.trans htk
  have hes : b ∉ es := (List.nodup_cons.mp hboth.grab.nodup).1
  have hd := hgrab.data b (List.mem_singleton_self b)
  refine ⟨es, buf, fs₂, heq, hboth.writeBlocks (by simp) hes buf, hle, hfull.imp id ?_, ?_⟩
  · intro hex c hc hg
    rw [writeBlocks_disk, blockUsed_update hd.ne_blockBitmapAt]
    exact hex c hc hg
  · exact ptrBlock_of_slots _ _ (by rw [writeBlocks_disk, Function.update_self]) (by omega) hptr

/-! ## The double indirect block -/

/-- From `fs` to `fs'` at most `k` pointer blocks were taken with the data blocks under
    them, all but the last one full: the pieces of the data from `a` on. -/
structure Spread (data node : Mem) (pref k : Nat) (fs fs' : Fs) (a : Nat)
    (ps : List (Nat × List Nat)) : Prop where
  taken : Taken data node pref fs fs' a (ps.flatMap fun p => p.2) (ps.flatMap fun p => p.1 :: p.2)
  len : ps.length ≤ k
  fits : Fits (iBlocks node - a) ps
  full : (ps.flatMap fun p => p.2).length = iBlocks node - a ∨
    128 * k ≤ (ps.flatMap fun p => p.2).length ∨ Exhausted fs'.disk pref
  ptrs : ∀ p ∈ ps, PtrBlock fs'.disk p.1 p.2

section Spread

variable {data node : Mem} {pref k a b : Nat} {fs fs₁ fs' : Fs} {es : List Nat}
  {ps : List (Nat × List Nat)}

theorem Spread.nil (data : Mem) (h : k = 0 ∨ iBlocks node - a = 0 ∨ Exhausted fs.disk pref) :
    Spread data node pref k fs fs a [] where
  taken := Taken.refl ..
  len := Nat.zero_le _
  fits := trivial
  full := by
    rcases h with rfl | h | h
    · exact Or.inr (Or.inl le_rfl)
    · exact Or.inl (by rw [h]; rfl)
    · exact Or.inr (Or.inr h)
  ptrs := by simp

/-- After a pointer block that is not full nothing more is found. -/
theorem Spread.stops (h : Spread data node pref k fs fs' a ps) (he : Exhausted fs.disk pref) :
    ps = [] := by
  have := he.nil h.taken.grab h.taken.above
  cases ps with
  | nil => rfl
  | cons p ps => simp at this

theorem TakenUnder.fits (h : TakenUnder data node pref fs fs₁ a b es)
    (h' : Spread data node pref k fs₁ fs' (a + es.length) ps) (ha : a < iBlocks node) :
    Fits (iBlocks node - a) ((b, es) :: ps) := by
  have hle := h.len
  refine ⟨by omega, by dsimp only; omega, fun hps => ?_, ?_⟩
  · rcases h.full with hfl | hex
    · dsimp only; omega
    · exact absurd (h'.stops hex) hps
  · rcases h.full with hfl | hex
    · rw [show iBlocks node - a - 128 = iBlocks node - (a + es.length) by omega]
      exact h'.fits
    · rw [h'.stops hex]
      trivial

theorem TakenUnder.full_cons (h : TakenUnder data node pref fs fs₁ a b es)
    (h' : Spread data node pref k fs₁ fs' (a + es.length) ps) :
    (((b, es) :: ps).flatMap fun p => p.2).length = iBlocks node - a ∨
      128 * (k + 1) ≤ (((b, es) :: ps).flatMap fun p => p.2).length ∨
      Exhausted fs'.disk pref := by
  rw [List.flatMap_cons, List.length_append]
  dsimp only
  rcases h.full with hfl | hex
  · rcases h'.full with h1 | h1 | h1
    · left; omega
    · have hroom := h'.fits.length.1
      by_cases h128 : es.length = 128
      · right; left; omega
      · left; omega
    · right; right; exact h1
  · right; right
    exact hex.grab h'.taken.grab

theorem Spread.cons (h : TakenUnder data node pref fs fs₁ a b es)
    (h' : Spread data node pref k fs₁ fs' (a + es.length) ps) (ha : a < iBlocks node) :
    Spread data node pref (k + 1) fs fs' a ((b, es) :: ps) where
  taken := by
    rw [List.flatMap_cons, List.flatMap_cons]
    exact h.taken.trans h'.taken
  len := Nat.succ_le_succ h'.len
  fits := h.fits h' ha
  full := h.full_cons h'
  ptrs := fun p hp => by
    have hmem : b ∈ b :: es := List.mem_cons_self
    rcases List.mem_cons.mp hp with rfl | hp
    · exact h.ptrs.grab h'.taken.grab (h.taken.grab.data b hmem) (h.taken.grab.used_of_mem hmem)
    · exact h'.ptrs p hp

end Spread

/-- The loop over the double indirect block: pointer blocks `ps` with their data blocks,
    their numbers stored from slot `dblIdx` on. -/
theorem allocDouble_spec (data node : Mem) (pref : Nat) :
    ∀ (k dblIdx : Nat) (buf : Mem) (a : Nat) {fs : Fs}, Ready fs →
      ∃ ps buf' fs', allocDouble data node pref k dblIdx buf a fs =
          (buf', a + (ps.flatMap fun p => p.2).length, fs') ∧
        Spread data node pref k fs fs' a ps ∧
        Slots (ptr buf) (ptr buf') dblIdx (ps.map fun p => p.1) := by
  intro k
  induction k with
  | zero =>
    intro dblIdx buf a fs _
    exact ⟨[], buf, fs, rfl, Spread.nil data (Or.inl rfl), Slots.nil _ _⟩
  | succ k ih =>
    intro dblIdx buf a fs hr
    unfold allocDouble
    by_cases ha : a < iBlocks node
    · rw [if_pos ha]
      rcases searchBlock_spec hr pref with ⟨hnone, hex⟩ | ⟨b, fs₁, hsome, hge, hgrab, -⟩
      · rw [hnone]
        exact ⟨[], buf, fs, rfl, Spread.nil data (Or.inr (Or.inr hex)), Slots.nil _ _⟩
      · rw [hsome]
        obtain ⟨es, ptrBuf, fs₂, hptrs, hone⟩ := takeIndirect data node a hr hge hgrab
        have hb := hgrab.data b (List.mem_singleton_self b)
        obtain ⟨ps, buf', fs', heq, hrest, hslots⟩ :=
          ih (dblIdx + 1) (wr32 buf (dblIdx * 4) b) (a + es.length) (hone.taken.grab.ready hr)
        refine ⟨(b, es) :: ps, buf', fs', ?_, Spread.cons hone hrest ha,
          hslots.cons (ptr_wr32_data hb _ _)⟩
        dsimp only
        rw [hptrs]
        dsimp only
        rw [heq, List.flatMap_cons, List.length_append, Nat.add_assoc]
    · rw [if_neg ha]
      exact ⟨[], buf, fs, rfl, Spread.nil data (Or.inr (Or.inl (by omega))), Slots.nil _ _⟩

/-! ## The direct pointers -/

/-- The loop over the direct pointers: the blocks `es`, stored from pointer `i` on. -/
theorem allocDirect_spec (data : Mem) (pref : Nat) :
    ∀ (k i : Nat) (node : Mem) (a : Nat) {fs : Fs}, Ready fs → i + k ≤ 12 →
      ∃ es node' fs', allocDirect data pref k i node a fs = (node', a + es.length, fs') ∧
        Taken data node pref fs fs' a es es ∧ es.length ≤ min k (iBlocks node - a) ∧
        (es.length = min k (iBlocks node - a) ∨ Exhausted fs'.disk pref) ∧
        (∀ o < 10, node' o = node o) ∧ Slots (iBlock node) (iBlock node') i es := by
  intro k
  induction k with
  | zero =>
    intro i node a fs _ _
    refine ⟨[], node, fs, rfl, Taken.refl .., Nat.zero_le _, Or.inl ?_, fun _ _ => rfl,
      Slots.nil _ _⟩
    simp
  | succ k ih =>
    intro i node a fs hr hik
    have hstop : ∀ (h : iBlocks node - a = 0 ∨ Exhausted fs.disk pref),
        ∃ es node' fs', (node, a, fs) = (node', a + es.length, fs') ∧
          Taken data node pref fs fs' a es es ∧ es.length ≤ min (k + 1) (iBlocks node - a) ∧
          (es.length = min (k + 1) (iBlocks node - a) ∨ Exhausted fs'.disk pref) ∧
          (∀ o < 10, node' o = node o) ∧ Slots (iBlock node) (iBlock node') i es := by
      intro h
      refine ⟨[], node, fs, rfl, Taken.refl .., Nat.zero_le _, ?_, fun _ _ => rfl, Slots.nil _ _⟩
      exact h.imp (fun h => by rw [h]; rfl) id
    unfold allocDirect
    by_cases ha : a < iBlocks node
    · rw [if_pos ha]
      rcases searchBlock_spec hr pref with ⟨hnone, hex⟩ | ⟨b, fs₁, hsome, hge, hgrab, -⟩
      · rw [hnone]
        exact hstop (Or.inr hex)
      · rw [hsome]
        have hb := hgrab.data b (List.mem_singleton_self b)
        have hlow : ∀ o < 10, setIBlock node i b o = node o := fun o ho => setIBlock_of_lt ho
        have hn : iBlocks (setIBlock node i b) = iBlocks node := iBlocks_congr_low hlow
        have hone := Taken.congr (Taken.one data (setIBlock node i b) a
          hge hgrab) fun o ho => hlow o ho
        obtain ⟨es, node', fs', heq, htk, hle, hfull, hlow', hptr⟩ :=
          ih (i + 1) (setIBlock node i b) (a + 1) (hone.grab.ready hr) (by omega)
        rw [hn] at hle hfull
        refine ⟨b :: es, node', fs', ?_, hone.trans (htk.congr hlow), ?_, ?_, ?_,
          hptr.cons (iBlock_setIBlock_data hb _ _)⟩
        · dsimp only
          rw [heq, List.length_cons, Nat.add_assoc, Nat.add_comm 1]
        · rw [List.length_cons]; omega
        · rw [List.length_cons]
          exact hfull.imp (fun h => by omega) id
        · exact fun o ho => (hlow' o ho).trans (hlow o ho)
    · rw [if_neg ha]
      exact hstop (Or.inl (by omega))

/-! ## The indirect parts -/

/-- The single indirect part: no pointer block, or one with its data blocks. -/
theorem allocSingle_spec (data : Mem) (pref : Nat) (node : Mem) (a : Nat) {fs : Fs}
    (hr : Ready fs) :
    ∃ (sg : Option (Nat × List Nat)) (node' : Mem) (fs' : Fs),
      allocSingle data pref node a fs = (node', a + (sg.elim [] fun p => p.2).length, fs') ∧
      Taken data node pref fs fs' a (sg.elim [] fun p => p.2) (sg.elim [] fun p => p.1 :: p.2) ∧
      (∀ p, sg = some p →
        a < iBlocks node ∧ p.2.length ≤ min 128 (iBlocks node - a) ∧ PtrBlock fs'.disk p.1 p.2) ∧
      ((sg.elim [] fun p => p.2).length = min 128 (iBlocks node - a) ∨ Exhausted fs'.disk pref) ∧
      (∀ o < 10, node' o = node o) ∧
      ∀ j, iBlock node' j =
        if j = 12 then sg.elim (iBlock node 12) fun p => p.1 else iBlock node j := by
  have hkeep : ∀ j, iBlock node j = if j = 12 then iBlock node 12 else iBlock node j := by
    intro j
    split
    · rename_i h; rw [h]
    · rfl
  unfold allocSingle
  by_cases ha : a < iBlocks node
  · rw [if_pos ha]
    rcases searchBlock_spec hr pref with ⟨hnone, hex⟩ | ⟨b, fs₁, hsome, hge, hgrab, -⟩
    · rw [hnone]
      exact ⟨none, node, fs, rfl, Taken.refl .., by simp, Or.inr hex, fun _ _ => rfl, hkeep⟩
    · rw [hsome]
      have hb := hgrab.data b (List.mem_singleton_self b)
      have hlow : ∀ o < 10, setIBlock node 12 b o = node o := fun o ho => setIBlock_of_lt ho
      have hn : iBlocks (setIBlock node 12 b) = iBlocks node := iBlocks_congr_low hlow
      obtain ⟨es, buf, fs₂, heq, htk, hle, hfull, hblk⟩ :=
        takeIndirect data (setIBlock node 12 b) a hr hge hgrab
      rw [hn] at hle hfull
      refine ⟨some (b, es), setIBlock node 12 b, fs₂.writeBlocks b buf, ?_,
        htk.congr hlow, ?_, hfull, hlow, fun j => ?_⟩
      · dsimp only
        rw [if_pos hb.ne_zero, heq]
        rfl
      · intro p hp
        obtain rfl : (b, es) = p := by simpa using hp
        exact ⟨ha, hle, hblk⟩
      · exact iBlock_setIBlock_data hb node _ j
  · rw [if_neg ha]
    refine ⟨none, node, fs, rfl, Taken.refl .., by simp, Or.inl ?_, fun _ _ => rfl, hkeep⟩
    show 0 = _
    omega

/-- The double indirect part: no pointer block, or one over pointer blocks. -/
theorem allocDoubleIndirect_spec (data : Mem) (pref : Nat) (node : Mem) (a : Nat) {fs : Fs}
    (hr : Ready fs) :
    ∃ (db : Option (Nat × List (Nat × List Nat))) (node' : Mem) (a' : Nat) (fs' : Fs),
      allocDoubleIndirect data pref node a fs = (node', a', fs') ∧
      Taken data node pref fs fs' a (db.elim [] fun q => q.2.flatMap fun p => p.2)
        (db.elim [] fun q => q.1 :: q.2.flatMap fun p => p.1 :: p.2) ∧
      (∀ q, db = some q → a < iBlocks node ∧ q.2.length ≤ 128 ∧ Fits (iBlocks node - a) q.2 ∧
        PtrBlock fs'.disk q.1 (q.2.map fun p => p.1) ∧ ∀ p ∈ q.2, PtrBlock fs'.disk p.1 p.2) ∧
      ((db.elim [] fun q => q.2.flatMap fun p => p.2).length = iBlocks node - a ∨
        16384 ≤ (db.elim [] fun q => q.2.flatMap fun p => p.2).length ∨
        Exhausted fs'.disk pref) ∧
      (∀ o < 10, node' o = node o) ∧
      ∀ j, iBlock node' j =
        if j = 13 then db.elim (iBlock node 13) fun q => q.1 else iBlock node j := by
  have hkeep : ∀ j, iBlock node j = if j = 13 then iBlock node 13 else iBlock node j := by
    intro j
    split
    · rename_i h; rw [h]
    · rfl
  unfold allocDoubleIndirect
  by_cases ha : a < iBlocks node
  · rw [if_pos ha]
    rcases searchBlock_spec hr pref with ⟨hnone, hex⟩ | ⟨b, fs₁, hsome, hge, hgrab, -⟩
    · rw [hnone]
      exact ⟨none, node, a, fs, rfl, Taken.refl .., by simp, Or.inr (Or.inr hex),
        fun _ _ => rfl, hkeep⟩
    · rw [hsome]
      have hb := hgrab.data b (List.mem_singleton_self b)
      have hlow : ∀ o < 10, setIBlock node 13 b o = node o := fun o ho => setIBlock_of_lt ho
      have hn : iBlocks (setIBlock node 13 b) = iBlocks node := iBlocks_congr_low hlow
      obtain ⟨ps, buf, fs₂, heq, ⟨htk, hlen, hfit, hend, hin⟩, hslots⟩ :=
        allocDouble_spec data (setIBlock node 13 b) pref 128 0 fs₁.zeroBuf a (hgrab.ready hr)
      rw [hn] at hfit hend
      have hone : Taken data node pref fs fs₁ a [] [b] :=
        ⟨hgrab, by simp, fun c hc => by rw [List.mem_singleton.mp hc]; exact hge,
          Filled.nil _ _ _ _⟩
      have hboth := hone.trans (htk.congr hlow)
      have hnb := (List.nodup_cons.mp hboth.grab.nodup).1
      have hleaf : ∀ p ∈ ps, p.1 ≠ b := by
        intro p hp hc
        exact hnb (List.mem_flatMap.mpr ⟨p, hp, by rw [hc]; exact List.mem_cons_self⟩)
      refine ⟨some (b, ps), setIBlock node 13 b, a + (ps.flatMap fun p => p.2).length,
        fs₂.writeBlocks b buf, ?_, hboth.writeBlocks (by simp) (fun hc => ?_) buf, ?_, ?_, hlow,
          fun j => ?_⟩
      · dsimp only
        rw [if_pos hb.ne_zero, heq]
      · obtain ⟨p, hp, hbp⟩ := List.mem_flatMap.mp hc
        exact hnb (List.mem_flatMap.mpr ⟨p, hp, List.mem_cons_of_mem _ hbp⟩)
      · intro q hq
        obtain rfl : (b, ps) = q := by simpa using hq
        refine ⟨ha, hlen, hfit, ?_, fun p hp => ?_⟩
        · refine ptrBlock_of_slots buf fs₁ ?_ (by simpa using hlen) hslots
          rw [writeBlocks_disk, Function.update_self]
        · unfold PtrBlock
          rw [writeBlocks_disk, Function.update_of_ne (hleaf p hp)]
          exact hin p hp
      · refine hend.imp id (Or.imp (fun h => h) fun hex c hc hg => ?_)
        rw [writeBlocks_disk, blockUsed_update hb.ne_blockBitmapAt]
        exact hex c hc hg
      · exact iBlock_setIBlock_data hb node _ j
  · rw [if_neg ha]
    refine ⟨none, node, a, fs, rfl, Taken.refl .., by simp, Or.inl ?_, fun _ _ => rfl, hkeep⟩
    show 0 = _
    omega

/-! ## The whole file -/

/-- The file `t` was laid out for `data` between `fs` and `fs'`; `node'` is its node. -/
structure Laid (data node : Mem) (pref : Nat) (fs fs' : Fs) (node' : Mem) (t : FileTree) :
    Prop where
  grab : Grab fs fs' t.blocks
  above : ∀ b ∈ t.blocks, 256 * pref ≤ b
  holds : t.Holds fs'.disk node'
  shape : t.Shape (iBlocks node)
  filled : Filled data node 0 fs'.disk t.data
  full : t.data.length = iBlocks node ∨ Exhausted fs'.disk pref
  low : ∀ o < 10, node' o = node o
  last : iBlock node' 14 = iBlock node 14

theorem length_le_of_grab {fs fs' : Fs} {L : List Nat} (h : Grab fs fs' L) : L.length ≤ 2048 := by
  have hsub : L.toFinset ⊆ Finset.range 2048 := by
    intro b hb
    exact Finset.mem_range.mpr (h.data b (List.mem_toFinset.mp hb)).1
  have := Finset.card_le_card hsub
  rwa [List.toFinset_card_of_nodup h.nodup, Finset.card_range] at this

theorem perm_pointed (ps : List (Nat × List Nat)) :
    (ps.flatMap fun p => p.1 :: p.2).Perm (ps.flatMap fun p => p.2 ++ [p.1]) := by
  induction ps with
  | nil => exact List.Perm.refl _
  | cons p ps ih =>
    rw [List.flatMap_cons, List.flatMap_cons]
    exact (List.perm_append_singleton p.1 p.2).symm.append ih

namespace FileTree

/-- The blocks of a file in the order in which `allocate_node_blocks` takes them. -/
theorem perm_blocks (t : FileTree) :
    (t.direct ++ t.single.elim [] (fun p => p.1 :: p.2) ++
      t.double.elim [] (fun q => q.1 :: q.2.flatMap fun p => p.1 :: p.2)).Perm t.blocks := by
  unfold blocks
  refine ((List.Perm.refl t.direct).append ?_).append ?_
  · cases t.single with
    | none => exact List.Perm.refl _
    | some p => exact (List.perm_append_singleton p.1 p.2).symm
  · cases t.double with
    | none => exact List.Perm.refl _
    | some q => exact ((perm_pointed q.2).cons q.1).trans (List.perm_append_singleton _ _).symm

theorem length_data (t : FileTree) :
    t.data.length = t.direct.length + (t.single.elim [] fun p => p.2).length +
      (t.double.elim [] fun q => q.2.flatMap fun p => p.2).length := by
  unfold data
  rw [List.length_append, List.length_append]

theorem length_double_le (t : FileTree) :
    (t.double.elim [] fun q => q.2.flatMap fun p => p.2).length ≤ t.blocks.length := by
  unfold blocks
  rw [List.length_append]
  refine le_trans ?_ (Nat.le_add_left _ _)
  cases t.double with
  | none => exact le_rfl
  | some q =>
    simp only [Option.elim_some, List.length_append, length_flatMap_pointed]
    omega

end FileTree

/-- The file `t`, taken level by level: `fs₁` is the state behind the direct pointers,
    `fs₂` the state behind the single indirect block, `node'` the node at the end. -/
structure Levels (data node : Mem) (pref : Nat) (fs fs₁ fs₂ fs₃ : Fs) (node' : Mem)
    (t : FileTree) : Prop where
  direct : Taken data node pref fs fs₁ 0 t.direct t.direct
  directLen : t.direct.length ≤ min 12 (iBlocks node)
  directFull : t.direct.length = min 12 (iBlocks node) ∨ Exhausted fs₁.disk pref
  single : Taken data node pref fs₁ fs₂ t.direct.length (t.single.elim [] fun p => p.2)
    (t.single.elim [] fun p => p.1 :: p.2)
  singleFits : ∀ p, t.single = some p → t.direct.length < iBlocks node ∧
    p.2.length ≤ min 128 (iBlocks node - t.direct.length) ∧ PtrBlock fs₂.disk p.1 p.2
  singleFull : (t.single.elim [] fun p => p.2).length = min 128 (iBlocks node - t.direct.length) ∨
    Exhausted fs₂.disk pref
  double : Taken data node pref fs₂ fs₃
    (t.direct.length + (t.single.elim [] fun p => p.2).length)
    (t.double.elim [] fun q => q.2.flatMap fun p => p.2)
    (t.double.elim [] fun q => q.1 :: q.2.flatMap fun p => p.1 :: p.2)
  doubleFits : ∀ q, t.double = some q →
    t.direct.length + (t.single.elim [] fun p => p.2).length < iBlocks node ∧ q.2.length ≤ 128 ∧
    Fits (iBlocks node - (t.direct.length + (t.single.elim [] fun p => p.2).length)) q.2 ∧
    PtrBlock fs₃.disk q.1 (q.2.map fun p => p.1) ∧ ∀ p ∈ q.2, PtrBlock fs₃.disk p.1 p.2
  doubleFull : (t.double.elim [] fun q => q.2.flatMap fun p => p.2).length =
      iBlocks node - (t.direct.length + (t.single.elim [] fun p => p.2).length) ∨
    16384 ≤ (t.double.elim [] fun q => q.2.flatMap fun p => p.2).length ∨ Exhausted fs₃.disk pref
  low : ∀ o < 10, node' o = node o
  ptrs : ∀ j, iBlock node' j =
    if j = 13 then t.double.elim 0 (fun q => q.1)
    else if j = 12 then t.single.elim 0 (fun p => p.1)
    else if j < t.direct.length then t.direct.getD j 0 else iBlock node j

/-- The three parts of `allocate_node_blocks`, on a node without pointers. -/
theorem allocateNodeBlocks_levels (data node : Mem) (pref : Nat) {fs : Fs} (hr : Ready fs)
    (hz : ∀ j < 14, iBlock node j = 0) :
    ∃ node' fs₁ fs₂ fs₃ t, allocateNodeBlocks data node pref fs = (node', syncMetadata fs₃) ∧
      Levels data node pref fs fs₁ fs₂ fs₃ node' t := by
  obtain ⟨es, n₁, fs₁, e₁, htk₁, hle₁, hfull₁, hlow₁, hptr₁⟩ :=
    allocDirect_spec data pref 12 0 node 0 hr (by omega)
  have hr₁ := htk₁.grab.ready hr
  have hn₁ : iBlocks n₁ = iBlocks node := iBlocks_congr_low hlow₁
  obtain ⟨sg, n₂, fs₂, e₂, htk₂, hsg, hfull₂, hlow₂, hptr₂⟩ :=
    allocSingle_spec data pref n₁ (0 + es.length) hr₁
  have hlow₂' : ∀ o < 10, n₂ o = node o := fun o ho => (hlow₂ o ho).trans (hlow₁ o ho)
  have hn₂ : iBlocks n₂ = iBlocks node := iBlocks_congr_low hlow₂'
  obtain ⟨db, n₃, a₃, fs₃, e₃, htk₃, hdb, hfull₃, hlow₃, hptr₃⟩ :=
    allocDoubleIndirect_spec data pref n₂ (0 + es.length + (sg.elim [] fun p => p.2).length)
      (htk₂.grab.ready hr₁)
  rw [hn₁] at hsg hfull₂
  rw [hn₂] at hdb hfull₃
  simp only [Nat.zero_add, Nat.sub_zero] at e₁ e₂ e₃ hle₁ hfull₁ htk₂ hsg hfull₂ htk₃ hdb hfull₃
  have z12 : iBlock n₁ 12 = 0 := by rw [hptr₁, if_neg (by omega), hz 12 (by decide)]
  have z13 : iBlock n₂ 13 = 0 := by
    rw [hptr₂, if_neg (by decide), hptr₁, if_neg (by omega), hz 13 (by decide)]
  refine ⟨n₃, fs₁, fs₂, fs₃, ⟨es, sg, db⟩, ?_, htk₁, hle₁, hfull₁, htk₂.congr hlow₁, hsg, hfull₂,
    htk₃.congr hlow₂', hdb, hfull₃, fun o ho => (hlow₃ o ho).trans (hlow₂' o ho), fun j => ?_⟩
  · unfold allocateNodeBlocks
    rw [e₁]
    dsimp only
    rw [e₂]
    dsimp only
    rw [e₃]
  · rw [hptr₃ j, z13, hptr₂ j, z12, hptr₁ j]
    simp only [Nat.zero_le, true_and, Nat.zero_add, Nat.sub_zero]

namespace Levels

variable {data node node' : Mem} {pref : Nat} {fs fs₁ fs₂ fs₃ : Fs} {t : FileTree}

theorem taken (h : Levels data node pref fs fs₁ fs₂ fs₃ node' t) :
    Taken data node pref fs fs₃ 0 t.data
      (t.direct ++ t.single.elim [] (fun p => p.1 :: p.2) ++
        t.double.elim [] (fun q => q.1 :: q.2.flatMap fun p => p.1 :: p.2)) := by
  have h12 := h.direct.trans (by rw [Nat.zero_add]; exact h.single)
  exact h12.trans (by rw [List.length_append, Nat.zero_add]; exact h.double)

theorem grab (h : Levels data node pref fs fs₁ fs₂ fs₃ node' t) : Grab fs fs₃ t.blocks :=
  h.taken.grab.perm t.perm_blocks

/-- The single indirect block is taken only when the direct pointers are. -/
theorem direct_of_single (h : Levels data node pref fs fs₁ fs₂ fs₃ node' t)
    {p : Nat × List Nat} (hp : t.single = some p) : t.direct.length = 12 := by
  have hlt := (h.singleFits p hp).1
  rcases h.directFull with hfull | hex
  · omega
  · have := hex.nil h.single.grab h.single.above
    rw [hp] at this
    cases this

/-- The double indirect block is taken only when the single one is full. -/
theorem single_of_double (h : Levels data node pref fs fs₁ fs₂ fs₃ node' t)
    {q : Nat × List (Nat × List Nat)} (hq : t.double = some q) :
    ∃ p, t.single = some p ∧ p.2.length = 128 := by
  have hlt := (h.doubleFits q hq).1
  rcases h.singleFull with hfull | hex
  · cases hs : t.single with
    | none =>
      rw [hs] at hfull hlt
      simp only [Option.elim_none, List.length_nil] at hfull hlt
      omega
    | some p =>
      rw [hs] at hfull hlt
      simp only [Option.elim_some] at hfull hlt
      exact ⟨p, rfl, by omega⟩
  · have := hex.nil h.double.grab h.double.above
    rw [hq] at this
    cases this

theorem holds (h : Levels data node pref fs fs₁ fs₂ fs₃ node' t)
    (hz : ∀ j < 14, iBlock node j = 0) : t.Holds fs₃.disk node' := by
  have hle := h.directLen
  refine ⟨by omega, fun j hj => ?_, ?_, fun p hp => ?_, ?_, ?_, ?_⟩
  · rw [h.ptrs, if_neg (by omega), if_neg (by omega)]
    by_cases hje : j < t.direct.length
    · rw [if_pos hje]
    · rw [if_neg hje, hz j (by omega), List.getD_eq_default _ _ (by omega)]
  · rw [h.ptrs, if_neg (by decide), if_pos rfl]
  · have hmem : p.1 ∈ t.single.elim [] fun p => p.1 :: p.2 := by
      rw [hp]
      exact List.mem_cons_self
    exact (h.singleFits p hp).2.2.grab h.double.grab (h.single.grab.data _ hmem)
      (h.single.grab.used_of_mem hmem)
  · rw [h.ptrs, if_pos rfl]
  · exact fun q hq => (h.doubleFits q hq).2.2.2.1
  · exact fun q hq => (h.doubleFits q hq).2.2.2.2

theorem shape (h : Levels data node pref fs fs₁ fs₂ fs₃ node' t) : t.Shape (iBlocks node) where
  direct := h.directLen
  single := fun p hp => by
    have hfit := h.singleFits p hp
    have h12 := h.direct_of_single hp
    exact ⟨by omega, h12, by omega⟩
  double := fun q hq => by
    obtain ⟨p, hp, hp128⟩ := h.single_of_double hq
    obtain ⟨hlt, hlq, hfit, -⟩ := h.doubleFits q hq
    have hsum : t.direct.length + (t.single.elim [] fun p => p.2).length = 140 := by
      rw [hp, h.direct_of_single hp]
      show 12 + p.2.length = 140
      omega
    rw [hsum] at hlt hfit
    exact ⟨hlt, hlq, hfit, p, hp, hp128⟩

/-- A level that is not full leaves no block to the next ones. -/
theorem full (h : Levels data node pref fs fs₁ fs₂ fs₃ node' t) :
    t.data.length = iBlocks node ∨ Exhausted fs₃.disk pref := by
  rw [t.length_data]
  rcases h.directFull with h1 | h1
  · rcases h.singleFull with h2 | h2
    · rcases h.doubleFull with h3 | h3 | h3
      · left; omega
      · -- so many blocks the disk does not have
        have hle := t.length_double_le
        have hlen := length_le_of_grab h.grab
        omega
      · right; exact h3
    · right; exact h2.grab h.double.grab
  · right; exact (h1.grab h.single.grab).grab h.double.grab

end Levels

/-- `allocate_node_blocks` on a node without pointers lays out a file. -/
theorem allocateNodeBlocks_spec (data node : Mem) (pref : Nat) {fs : Fs} (hr : Ready fs)
    (hz : ∀ j < 14, iBlock node j = 0) :
    ∃ node' fs' t, allocateNodeBlocks data node pref fs = (node', fs') ∧
      Laid data node pref fs fs' node' t := by
  obtain ⟨node', fs₁, fs₂, fs₃, t, heq, h⟩ := allocateNodeBlocks_levels data node pref hr hz
  have hdisk : ∀ b ∈ t.blocks, (syncMetadata fs₃).disk b = fs₃.disk b := by
    intro b hb
    have := (h.grab.data b hb).2.1
    exact syncMetadata_disk (by omega) (by omega)
  refine ⟨node', syncMetadata fs₃, t, heq, ?_⟩
  exact {
    grab := h.grab.sync
    above := fun b hb => h.taken.above b (t.perm_blocks.mem_iff.mpr hb)
    holds := (h.holds hz).congr (fun _ _ => rfl) hdisk
    shape := h.shape
    filled := fun k b hb => by
      rw [hdisk b (FileTree.data_subset b (List.mem_of_getElem? hb))]
      exact h.taken.filled k b hb
    full := h.full.imp_right fun hex => hex.grab (Grab.refl fs₃).sync
    low := h.low
    last := by
      have := h.directLen
      rw [h.ptrs, if_neg (by decide), if_neg (by decide), if_neg (by omega)] }

/-- An incomplete file has taken every block that was free from the preferred group on. -/
theorem Laid.takes_all {data node node' : Mem} {pref : Nat} {fs fs' : Fs} {t : FileTree}
    (h : Laid data node pref fs fs' node' t) :
    t.data.length = iBlocks node ∨ ∀ b ∈ freeFrom fs.disk pref, b ∈ t.blocks := by
  apply h.full.imp_right
  intro hex b hb
  obtain ⟨hb1, hb2, hb3⟩ := mem_freeFrom.mp hb
  have := hex b hb1 hb2
  rw [h.grab.used b hb1, hb3] at this
  simpa using this

/-- The file is complete exactly when its blocks were free from the preferred group on. -/
theorem Laid.full_iff {data node node' : Mem} {pref : Nat} {fs fs' : Fs} {t : FileTree}
    (h : Laid data node pref fs fs' node' t) :
    t.data.length = iBlocks node ↔ blocksNeeded (iBlocks node) ≤ (freeFrom fs.disk pref).card := by
  obtain ⟨hle, hfull, hpart⟩ := h.shape.length_blocks
  have hsub : t.blocks.toFinset ⊆ freeFrom fs.disk pref := by
    intro b hb
    have hb := List.mem_toFinset.mp hb
    exact mem_freeFrom.mpr ⟨(h.grab.data b hb).1, h.above b hb, h.grab.fresh b hb⟩
  have hcard := Finset.card_le_card hsub
  rw [List.toFinset_card_of_nodup h.grab.nodup] at hcard
  constructor
  · intro he
    rw [← hfull he]; exact hcard
  · intro hroom
    by_contra hne
    have hlt := hpart (by omega)
    have hall := h.takes_all.resolve_left hne
    have hback : freeFrom fs.disk pref ⊆ t.blocks.toFinset :=
      fun b hb => List.mem_toFinset.mpr (hall b hb)
    have := Finset.card_le_card hback
    rw [List.toFinset_card_of_nodup h.grab.nodup] at this
    omega

end LossOs.Ext2
