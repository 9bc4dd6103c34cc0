/-
  `split_path` of `commands/cd.c`, by index.

  `split_path` finds the components in place and copies each to a row of the caller's array, by
  the same steps in the loop and behind it. Here a read behind the terminator of the path and a
  write outside of the rows fail, so that a run that gives a state stays inside. It ends with the
  rows and the count that the list of `splitPath` says (`splitPath_stores`).
-/
import LossOs.Lib.CString
import LossOs.Shell.Cd

namespace LossOs.Shell.SplitPath

open LossOs.Lib

/-! ## The function -/

/-- The variables of `split_path`. -/
structure Split where
  i : Nat
  compStart : Nat
  compLen : Nat
  count : Nat
  components : Rows

/-- `while (path[i] == '/') i++;` -/
def skipSlashes (path : List UInt8) : (fuel i : Nat) → Option Nat
  | 0, _ => none
  | fuel + 1, i => do
      let c ← charAt path i
      if c = 47 then skipSlashes path fuel (i + 1) else some i

/-- `if (comp_len < 63)`: the component becomes row `count`. -/
def keepComponent (path : List UInt8) (maxComponents : Nat) (s : Split) : Option Split := do
  if s.compLen < 63 then
    let components ← storeRow maxComponents 64 s.count (fun j => charAt path (s.compStart + j))
      s.compLen s.components
    some { s with components := components, count := s.count + 1 }
  else some s

/-- The branch of the loop for a slash: the end of a component, and all slashes behind it. -/
def passSlashes (path : List UInt8) (maxComponents fuel : Nat) (s : Split) : Option Split := do
  let s ← if s.compLen > 0 then do
      let s ← keepComponent path maxComponents s
      some { s with compLen := 0 }
    else some s
  let i ← skipSlashes path fuel s.i
  some { s with i := i, compStart := i }

/-- `while (path[i] && count < max_components)`. -/
def splitWhile (path : List UInt8) (maxComponents : Nat) : (fuel : Nat) → Split → Option Split
  | 0, _ => none
  | fuel + 1, s => do
      let c ← charAt path s.i
      if c ≠ 0 ∧ s.count < maxComponents then
        if c = 47 then
          let s ← passSlashes path maxComponents (fuel + 1) s
          splitWhile path maxComponents fuel s
        else splitWhile path maxComponents fuel { s with compLen := s.compLen + 1, i := s.i + 1 }
      else some s

/-- `split_path`: the rows and the count. -/
def splitPath (fuel : Nat) (path : List UInt8) (maxComponents : Nat) (components : Rows) :
    Option (Rows × Nat) := do
  let i ← skipSlashes path fuel 0
  let s ← splitWhile path maxComponents fuel ⟨i, i, 0, 0, components⟩
  let s ← if s.compLen > 0 ∧ s.count < maxComponents then keepComponent path maxComponents s
    else some s
  some (s.components, s.count)

/-! ## The rows -/

/-- The rows hold the components in order; nothing else has changed. -/
structure Stored (before components : Rows) (done : List (List UInt8)) : Prop where
  rows : ∀ k c, done[k]? = some c → Holds (components k) c
  frame : ∀ k j, done.length ≤ k ∨ 64 ≤ j → components k j = before k j

/-- One row more. -/
theorem Stored.append {before components components' : Rows} {done : List (List UInt8)}
    {c : List UInt8} (h : Stored before components done) (hrow : Holds (components' done.length) c)
    (hsame : ∀ k j, k ≠ done.length ∨ 64 ≤ j → components' k j = components k j) :
    Stored before components' (done ++ [c]) := by
  refine ⟨fun k c' hk => ?_, fun k j hkj => ?_⟩
  · by_cases hlt : k < done.length
    · rw [List.getElem?_append_left hlt] at hk
      intro j x hx
      rw [hsame k j (Or.inl (by omega))]
      exact h.rows k c' hk j x hx
    · have hk' := (List.getElem?_eq_some_iff.mp hk).1
      rw [List.length_append, List.length_singleton] at hk'
      obtain rfl : k = done.length := by omega
      rw [List.getElem?_append_right (Nat.le_refl _), Nat.sub_self] at hk
      obtain rfl : c = c' := Option.some.inj hk
      exact hrow
  · rw [List.length_append, List.length_singleton] at hkj
    rw [hsame k j (by omega), h.frame k j (by omega)]

/-! ## The steps -/

section Steps

variable {path pre comp rest : List UInt8} {maxComponents : Nat} {before : Rows}
  {done : List (List UInt8)} {s : Split}

/-- The loop is at `rest`: in front of it are the characters of a component that is not complete,
    and the rows hold the components that are. -/
structure Split.At (path : List UInt8) (before : Rows) (pre comp rest : List UInt8)
    (done : List (List UInt8)) (s : Split) : Prop where
  path_eq : path = pre ++ (comp ++ rest)
  compStart_eq : s.compStart = pre.length
  compLen_eq : s.compLen = comp.length
  i_eq : s.i = pre.length + comp.length
  count_eq : s.count = done.length
  stored : Stored before s.components done

/-- The character that the loop looks at. -/
theorem Split.At.charAt (h : s.At path before pre comp rest done) :
    charAt path s.i = LossOs.Lib.charAt rest 0 := by
  rw [h.path_eq, h.i_eq, charAt_append, ← Nat.add_zero comp.length, charAt_append]

/-- A component of fewer than 63 characters becomes a row, a longer one does not. -/
theorem keepComponent_at (h : s.At path before pre comp rest done)
    (hcount : done.length < maxComponents) :
    ∃ s', keepComponent path maxComponents s = some s' ∧
      s'.At path before pre comp rest (if comp.length < 63 then done ++ [comp] else done) := by
  unfold keepComponent
  rw [h.compLen_eq, h.compStart_eq, h.count_eq]
  by_cases hlen : comp.length < 63
  · have hsrc : ∀ j (hj : j < comp.length),
        LossOs.Lib.charAt path (pre.length + j) = some comp[j] := by
      intro j hj
      rw [h.path_eq, charAt_append, charAt_append_left _ hj]
    obtain ⟨components, hstore, hrow, hsame⟩ :=
      storeRow_eq hcount s.components hsrc (by omega : comp.length < 64)
    rw [if_pos hlen, if_pos hlen, hstore]
    refine ⟨_, rfl, h.path_eq, rfl, rfl, h.i_eq, ?_, ?_⟩
    · rw [List.length_append, List.length_singleton]
    · exact h.stored.append hrow hsame
  · rw [if_neg hlen, if_neg hlen]
    exact ⟨s, rfl, h⟩

/-- The slashes in front of `rest` are skipped. -/
theorem skipSlashes_eq (pre rest : List UInt8) {fuel : Nat} (hfuel : rest.length < fuel) :
    ∃ slashes, rest = slashes ++ rest.dropWhile (· = 47) ∧
      skipSlashes (pre ++ rest) fuel pre.length = some (pre ++ slashes).length := by
  induction rest generalizing pre fuel with
  | nil =>
    obtain ⟨fuel, rfl⟩ := Nat.exists_eq_add_of_lt hfuel
    refine ⟨[], rfl, ?_⟩
    rw [skipSlashes, List.append_nil, charAt_length]
    rfl
  | cons c rest ih =>
    obtain ⟨fuel, rfl⟩ : ∃ n, fuel = n + 1 := ⟨fuel - 1, by omega⟩
    have hchar : LossOs.Lib.charAt (pre ++ c :: rest) pre.length = some c := by
      rw [← Nat.add_zero pre.length, charAt_append]
      rfl
    rw [skipSlashes, hchar]
    simp only [Option.bind_eq_bind, Option.bind_some]
    by_cases hc : c = 47
    · obtain ⟨slashes, hrest, hskip⟩ := @ih (pre ++ [c]) fuel (by simpa using hfuel)
      refine ⟨c :: slashes, ?_, ?_⟩
      · rw [List.dropWhile_cons_of_pos (by simpa using hc), List.cons_append, ← hrest]
      · rw [if_pos hc]
        rw [List.append_assoc, List.length_append, List.singleton_append] at hskip
        rw [show pre.length + 1 = pre.length + [c].length from rfl, hskip]
        simp
    · refine ⟨[], ?_, ?_⟩
      · rw [List.dropWhile_cons_of_neg (by simpa using hc)]
        rfl
      · rw [if_neg hc, List.append_nil]

/-- The component in front of a slash becomes a row if it is one of the short ones, and the loop
    goes on behind the slashes. -/
theorem passSlashes_at {fuel : Nat} (hfuel : rest.length < fuel)
    (hcount : done.length < maxComponents) (h : s.At path before pre comp rest done) :
    ∃ s' pre', passSlashes path maxComponents fuel s = some s' ∧
      s'.At path before pre' [] (rest.dropWhile (· = 47))
        (if comp.length > 0 ∧ comp.length < 63 then done ++ [comp] else done) := by
  obtain ⟨slashes, hslashes, hskip⟩ := skipSlashes_eq (pre ++ comp) rest hfuel
  rw [List.append_assoc, ← h.path_eq] at hskip
  have hgo : ∀ {done' : List (List UInt8)} (s' : Split), s'.At path before pre comp rest done' →
      ∃ s'' pre', ((skipSlashes path fuel s'.i).bind fun i =>
          some { s' with compLen := 0, i := i, compStart := i }) = some s'' ∧
        s''.At path before pre' [] (rest.dropWhile (· = 47)) done' := by
    intro done' s' hs'
    rw [hs'.i_eq, ← List.length_append, hskip]
    refine ⟨_, pre ++ comp ++ slashes, rfl, ?_, rfl, rfl, rfl, hs'.count_eq, hs'.stored⟩
    rw [List.nil_append, List.append_assoc, ← hslashes, List.append_assoc]
    exact hs'.path_eq
  unfold passSlashes
  rw [h.compLen_eq]
  by_cases hlen : comp.length > 0
  · obtain ⟨s', hkeep, hs'⟩ := keepComponent_at h hcount
    rw [if_pos hlen, if_congr (and_iff_right hlen) rfl rfl, hkeep]
    exact hgo s' hs'
  · have hzero : s.compLen = 0 := by
      rw [h.compLen_eq]
      omega
    have := hgo s h
    rw [if_neg hlen, if_neg fun h => hlen h.1]
    rwa [← hzero] at this

/-- The loop ends at the terminator or when all rows are full; what is left to do is what the loop
    over the list has left to do. -/
theorem splitWhile_at {fuel : Nat} (hnul : 0 ∉ rest) (hfuel : rest.length < fuel)
    (hcount : done.length ≤ maxComponents) (h : s.At path before pre comp rest done) :
    ∃ s' pre' comp' rest' done', splitWhile path maxComponents fuel s = some s' ∧
      s'.At path before pre' comp' rest' done' ∧ done'.length ≤ maxComponents ∧
      (rest' = [] ∨ ¬ done'.length < maxComponents) ∧
      splitLoop maxComponents rest comp done = splitLoop maxComponents rest' comp' done' := by
  induction fuel generalizing pre comp rest done s with
  | zero => exact absurd hfuel (Nat.not_lt_zero _)
  | succ fuel ih =>
    rw [splitWhile, h.charAt]
    cases rest with
    | nil => exact ⟨s, pre, comp, [], done, rfl, h, hcount, Or.inl rfl, rfl⟩
    | cons c rest =>
      rw [show LossOs.Lib.charAt (c :: rest) 0 = some c from rfl]
      simp only [Option.bind_eq_bind, Option.bind_some]
      have hc0 : c ≠ 0 := fun h => hnul (h ▸ List.mem_cons_self)
      have hnul' : 0 ∉ rest := fun h => hnul (List.mem_cons_of_mem c h)
      by_cases hlt : done.length < maxComponents
      · rw [if_pos ⟨hc0, h.count_eq ▸ hlt⟩, splitLoop, if_pos hlt]
        by_cases hc : c = 47
        · obtain ⟨s', pre', hpass, hs'⟩ := passSlashes_at hfuel hlt h
          rw [List.dropWhile_cons_of_pos (by simpa using hc)] at hs'
          have hsub := List.dropWhile_sublist (l := rest) (· = 47)
          rw [if_pos hc, if_pos hc, hpass, Option.bind_some, ← splitLoop_dropWhile _ rest]
          refine ih (fun h => hnul' (hsub.subset h)) ?_ ?_ hs'
          · exact Nat.lt_of_le_of_lt hsub.length_le (Nat.lt_of_succ_lt_succ hfuel)
          · split
            · rw [List.length_append]
              exact hlt
            · exact hcount
        · rw [if_neg hc, if_neg hc]
          refine ih hnul' (Nat.lt_of_succ_lt_succ hfuel) hcount
            ⟨?_, h.compStart_eq, ?_, ?_, h.count_eq, h.stored⟩
          · rw [List.append_assoc]
            exact h.path_eq
          · rw [List.length_append, ← h.compLen_eq]
            rfl
          · rw [List.length_append, ← Nat.add_assoc, ← h.i_eq]
            rfl
      · rw [if_neg fun h' => hlt (h.count_eq ▸ h'.2)]
        exact ⟨s, pre, comp, c :: rest, done, rfl, h, hcount, Or.inr hlt, rfl⟩

end Steps

/-! ## The result -/

/-- `split_path` stores what the list of `splitPath` says. -/
theorem splitPath_stores {path : List UInt8} (hnul : 0 ∉ path) (maxComponents : Nat)
    (components : Rows) {fuel : Nat} (hfuel : path.length < fuel) :
    ∃ components', splitPath fuel path maxComponents components =
        some (components', (Shell.splitPath path maxComponents).length) ∧
      Stored components components' (Shell.splitPath path maxComponents) := by
  obtain ⟨slashes, hslashes, hskip⟩ := skipSlashes_eq [] path hfuel
  have hat : Split.At path components slashes [] (path.dropWhile (· = 47)) []
      ⟨slashes.length, slashes.length, 0, 0, components⟩ :=
    ⟨hslashes, rfl, rfl, rfl, rfl, fun k c h => by simp at h, fun _ _ _ => rfl⟩
  have hsub := List.dropWhile_sublist (l := path) (· = 47)
  obtain ⟨s, pre, comp, rest, done, hwhile, hs, hcount, hend, hloop⟩ :=
    splitWhile_at (fun h => hnul (hsub.subset h)) (Nat.lt_of_le_of_lt hsub.length_le hfuel)
      (Nat.zero_le maxComponents) hat
  unfold splitPath Shell.splitPath
  simp only [List.nil_append, List.length_nil] at hskip
  rw [hskip]
  simp only [Option.bind_eq_bind, Option.bind_some]
  rw [hwhile, Option.bind_some, hloop, hs.compLen_eq, hs.count_eq]
  by_cases hlast : comp.length > 0 ∧ done.length < maxComponents
  · obtain rfl : rest = [] := hend.resolve_right fun h => h hlast.2
    obtain ⟨s', hkeep, hs'⟩ := keepComponent_at hs hlast.2
    have hif : splitLoop maxComponents [] comp done =
        if comp.length < 63 then done ++ [comp] else done :=
      if_congr ⟨fun h => h.2.2, fun h => ⟨hlast.1, hlast.2, h⟩⟩ rfl rfl
    rw [if_pos hlast, hkeep, Option.bind_some, hif, ← hs'.count_eq]
    exact ⟨s'.components, rfl, hs'.stored⟩
  · have hnone : splitLoop maxComponents rest comp done = done := by
      rcases hend with rfl | hfull
      · exact if_neg fun h => hlast ⟨h.1, h.2.1⟩
      · cases rest with
        | nil => exact if_neg fun h => hfull h.2.1
        | cons c rest => exact if_neg hfull
    rw [if_neg hlast, hnone]
    exact ⟨s.components, rfl, hs.stored⟩

/-- `split_path` stores the first components of fewer than 63 characters, in order and with their
    terminators, returns their number, reads up to the terminator of the path, and writes to the
    rows of these components only. -/
theorem splitPath_spec {path : List UInt8} (hnul : 0 ∉ path) (maxComponents : Nat)
    (before : Rows) {fuel : Nat} (hfuel : path.length < fuel) :
    ∃ components' kept, splitPath fuel path maxComponents before = some (components', kept.length) ∧
      kept = ((components path).filter fun c => c.length < 63).take maxComponents ∧
      Stored before components' kept := by
  obtain ⟨components', hrun, hstored⟩ := splitPath_stores hnul maxComponents before hfuel
  exact ⟨components', _, hrun, splitPath_take path maxComponents, hstored⟩

/-- `//a/b` into one row. -/
theorem splitPath_spec_short : ∃ components' kept,
    splitPath 6 [47, 47, 97, 47, 98] 1 (fun _ _ => 255) = some (components', kept.length) ∧
      kept = [[97]] ∧ Stored (fun _ _ => 255) components' kept := by
  obtain ⟨components', kept, hrun, hkept, hstored⟩ :=
    @splitPath_spec [47, 47, 97, 47, 98] (by decide) 1 (fun _ _ => 255) 6 (by decide)
  exact ⟨components', kept, hrun, hkept.trans (by decide), hstored⟩

end LossOs.Shell.SplitPath
