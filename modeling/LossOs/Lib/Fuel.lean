/-
  Computations that wait.

  What waits for something outside has no bound of its own; it is written with fuel, and `none` is
  a wait that was cut off. `Ends f Q`: with enough fuel `f` gives one result, which meets `Q`. The
  rules follow the program: `Ends.bind` for a sequence, `Ends.loop` for a counted loop, and
  `ends_poll` for a loop that asks until the answer is yes.
-/
import LossOs.Lib.Loops

namespace LossOs.Lib

variable {α β σ : Type*}

/-- From some amount of fuel on, the result is the same, and meets `Q`. -/
def Ends (f : Nat → Option α) (Q : α → Prop) : Prop := ∃ a, Q a ∧ ∃ N, ∀ n, N ≤ n → f n = some a

section Rules

variable {f : Nat → Option α} {g : Nat → α → Option β} {Q Q' : α → Prop} {R : β → Prop}

theorem Ends.of_eq {a : α} (h : ∀ n, f n = some a) (hQ : Q a) : Ends f Q :=
  ⟨a, hQ, 0, fun n _ => h n⟩

theorem Ends.mono (h : Ends f Q) (hQ : ∀ a, Q a → Q' a) : Ends f Q' := by
  obtain ⟨a, ha, hN⟩ := h
  exact ⟨a, hQ a ha, hN⟩

theorem Ends.mono_eq {f' : Nat → Option α} (h : Ends f Q) (hf : ∀ n, f' n = f n) : Ends f' Q := by
  obtain ⟨a, ha, N, hN⟩ := h
  exact ⟨a, ha, N, fun n hn => (hf n).trans (hN n hn)⟩

/-- The result is one that some amount of fuel gives. -/
theorem Ends.reached (h : Ends f Q) : Ends f fun a => Q a ∧ ∃ n, f n = some a := by
  obtain ⟨a, ha, N, hN⟩ := h
  exact ⟨a, ⟨ha, N, hN N (Nat.le_refl N)⟩, N, hN⟩

theorem Ends.of_le {f' : Nat → Option α} (h : Ends f Q) (M : Nat) (hf : ∀ n, M ≤ n → f' n = f n) :
    Ends f' Q := by
  obtain ⟨a, ha, N, hN⟩ := h
  exact ⟨a, ha, max M N, fun n hn => (hf n (Nat.le_trans (Nat.le_max_left M N) hn)).trans
    (hN n (Nat.le_trans (Nat.le_max_right M N) hn))⟩

theorem Ends.bind (h : Ends f Q) (hg : ∀ a, Q a → Ends (fun n => g n a) R) :
    Ends (fun n => (f n).bind (g n)) R := by
  obtain ⟨a, ha, N, hN⟩ := h
  obtain ⟨b, hb, M, hM⟩ := hg a ha
  refine ⟨b, hb, max N M, fun n hn => ?_⟩
  show (f n).bind (g n) = some b
  rw [hN n (Nat.le_trans (Nat.le_max_left N M) hn)]
  exact hM n (Nat.le_trans (Nat.le_max_right N M) hn)

/-- A counted loop, by an invariant of its rounds. -/
theorem Ends.loop {F : Nat → Nat → σ → Option σ} {I : Nat → σ → Prop} {s : σ} {k : Nat}
    (hround : ∀ i s, i < k → I i s → Ends (fun n => F n i s) (I (i + 1))) (hs : I 0 s) :
    Ends (fun n => loop (upTo 0 k) (F n) s) (I k) := by
  induction k with
  | zero => exact .of_eq (fun _ => rfl) hs
  | succ k ih =>
    refine ((ih fun i s hi => hround i s (Nat.lt_succ_of_lt hi)).bind fun s hs =>
      hround k s (Nat.lt_succ_self k) hs).mono_eq fun n => ?_
    rw [upTo_succ, loop_concat]

end Rules

/-! ## Polling -/

/-- Ask until the answer is yes. -/
def poll (probe : σ → Bool × σ) : Nat → σ → Option σ
  | 0, _ => none
  | n + 1, s => if (probe s).1 then some (probe s).2 else poll probe n (probe s).2

section Poll

variable {probe : σ → Bool × σ} {I J : σ → Prop} {s : σ}

/-- Each no brings the yes nearer. -/
theorem ends_poll (μ : σ → Nat) (hyes : ∀ s, I s → (probe s).1 = true → J (probe s).2)
    (hno : ∀ s, I s → (probe s).1 = false → I (probe s).2 ∧ μ (probe s).2 < μ s) (hs : I s) :
    Ends (fun n => poll probe n s) J := by
  induction hm : μ s using Nat.strongRecOn generalizing s with
  | ind m ih =>
    cases hp : (probe s).1 with
    | true =>
      refine ⟨(probe s).2, hyes s hs hp, 1, fun n hn => ?_⟩
      obtain ⟨n, rfl⟩ := Nat.exists_eq_add_of_le' hn
      exact if_pos hp
    | false =>
      obtain ⟨hI, hlt⟩ := hno s hs hp
      obtain ⟨a, ha, N, hN⟩ := ih _ (hm ▸ hlt) hI rfl
      refine ⟨a, ha, N + 1, fun n hn => ?_⟩
      obtain ⟨n, rfl⟩ := Nat.exists_eq_add_of_le' (Nat.le_trans (Nat.le_add_left 1 N) hn)
      refine Eq.trans (if_neg ?_) (hN n (by omega))
      rw [hp]
      exact Bool.false_ne_true

end Poll

end LossOs.Lib
