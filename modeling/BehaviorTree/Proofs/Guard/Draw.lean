import BehaviorTree.Guard.Threat
import Mathlib.Data.FinEnum
import Mathlib.Data.Nat.Bitwise
import Mathlib.Data.Nat.ModEq
import Mathlib.Data.Nat.Prime.Basic

/-!
# Draws of threats

Mixing loses nothing: each of its steps can be undone, so that it permutes the words. The words that
are mixed differ already: their lower half tells the window, of which an odd multiple stands there
and to which the agent adds nothing, and once the window is known the rest tells the agent. As long
as agents and windows fit in half a word, no two of either therefore share a draw
(`Threat.draws_apart`).
-/

namespace BehaviorTree

/-! ### Steps that can be undone -/

/-- A word exclusive or'd with itself shifted down. -/
def xorShift {n : Nat} (shift : Nat) (x : BitVec n) : BitVec n := x ^^^ (x >>> shift)

section

variable {n shift : Nat}

/-- The step taken twice is one step that shifts twice as far. -/
theorem xorShift_xorShift (x : BitVec n) :
    xorShift shift (xorShift shift x) = xorShift (shift + shift) x := by
  have htwice : (x >>> shift) >>> shift = x >>> (shift + shift) :=
    (BitVec.shiftRight_add x shift shift).symm
  calc (x ^^^ x >>> shift) ^^^ (x ^^^ x >>> shift) >>> shift
      = x ^^^ (x >>> shift ^^^ x >>> shift) ^^^ (x >>> shift) >>> shift := by
        rw [BitVec.ushiftRight_xor_distrib]
        simp only [BitVec.xor_assoc]
    _ = x ^^^ x >>> (shift + shift) := by rw [BitVec.xor_self, BitVec.xor_zero, htwice]

private theorem xorShift_of_le (h : n ≤ shift) (x : BitVec n) : xorShift shift x = x := by
  rw [xorShift, BitVec.ushiftRight_eq_zero h, BitVec.xor_zero]

/-- The step loses nothing, however far it shifts. -/
theorem xorShift_injective (h : 0 < shift) :
    Function.Injective (xorShift shift : BitVec n → BitVec n) := by
  -- The induction is on the bits that stay in the word when it is shifted. The step taken twice
  -- leaves fewer of them, and what loses nothing when taken twice loses nothing when taken once.
  induction hstay : n - shift using Nat.strong_induction_on generalizing shift with
  | _ stay ih =>
    intro x y hxy
    by_cases hout : n ≤ shift
    · rwa [xorShift_of_le hout, xorShift_of_le hout] at hxy
    · apply ih (n - (shift + shift)) (by omega) (show 0 < shift + shift by omega) rfl
      rw [← xorShift_xorShift, ← xorShift_xorShift, hxy]

end

/-- Numbers below a power of two are told apart by what an odd multiple of them leaves. -/
theorem eq_of_odd_mul_mod {a b factor k : Nat} (hodd : Odd factor)
    (h : a * factor % 2 ^ k = b * factor % 2 ^ k) (ha : a < 2 ^ k) (hb : b < 2 ^ k) : a = b := by
  have hcoprime : Nat.Coprime (2 ^ k) factor := (Nat.coprime_two_left.mpr hodd).pow_left k
  have hmod : a ≡ b [MOD 2 ^ k] := Nat.ModEq.cancel_right_of_coprime hcoprime h
  exact hmod.eq_of_lt_of_lt ha hb

private theorem shiftDown_injective (shift : UInt64) (h : 0 < shift) (hshift : shift < 64) :
    Function.Injective fun x : UInt64 ↦ x ^^^ (x >>> shift) := by
  have hmod : shift.toBitVec % 64 = shift.toBitVec := BitVec.umod_eq_of_lt hshift
  have hstep (x : UInt64) : (x ^^^ (x >>> shift)).toBitVec = xorShift shift.toNat x.toBitVec := by
    rw [UInt64.toBitVec_xor, UInt64.toBitVec_shiftRight, hmod]
    rfl
  intro x y hxy
  apply UInt64.toBitVec_inj.mp
  apply xorShift_injective (UInt64.lt_iff_toNat_lt.mp h)
  rw [← hstep, ← hstep]
  exact congrArg UInt64.toBitVec hxy

private theorem mul_odd_injective (factor : UInt64) (hodd : Odd factor.toNat) :
    Function.Injective fun x : UInt64 ↦ x * factor := by
  intro x y hxy
  have hnat : (x * factor).toNat = (y * factor).toNat := congrArg UInt64.toNat hxy
  rw [UInt64.toNat_mul, UInt64.toNat_mul] at hnat
  exact UInt64.toNat_inj.mp (eq_of_odd_mul_mod hodd hnat x.toNat_lt y.toNat_lt)

namespace Threat

private theorem mix_injective : Function.Injective mix := by
  have hstart : Function.Injective fun x : UInt64 ↦ x + 0x9E3779B97F4A7C15 :=
    fun x y hxy ↦ (UInt64.add_left_inj _).mp hxy
  have hfirst : Function.Injective fun x : UInt64 ↦ (x ^^^ (x >>> 30)) * 0xBF58476D1CE4E5B9 :=
    (mul_odd_injective _ (by decide)).comp (shiftDown_injective 30 (by decide) (by decide))
  have hsecond : Function.Injective fun x : UInt64 ↦ (x ^^^ (x >>> 27)) * 0x94D049BB133111EB :=
    (mul_odd_injective _ (by decide)).comp (shiftDown_injective 27 (by decide) (by decide))
  have hlast : Function.Injective fun x : UInt64 ↦ x ^^^ (x >>> 31) :=
    shiftDown_injective 31 (by decide) (by decide)
  exact hlast.comp (hsecond.comp (hfirst.comp hstart))

/-- Mixing permutes the words. -/
theorem mix_bijective : Function.Bijective mix :=
  Finite.injective_iff_bijective.mp mix_injective

/-! ### Words before they are mixed -/

private theorem toNat_swapHalves (x : UInt64) :
    (swapHalves x).toNat = x.toNat % 2 ^ 32 * 2 ^ 32 + x.toNat / 2 ^ 32 := by
  have hlt : x.toNat / 2 ^ 32 < 2 ^ 32 := by
    have := x.toNat_lt
    omega
  have hup : (x <<< 32).toNat = (x.toNat % 2 ^ 32) <<< 32 := by
    rw [UInt64.toNat_shiftLeft, Nat.shiftLeft_eq, Nat.shiftLeft_eq]
    exact Nat.mul_mod_mul_right (2 ^ 32) x.toNat (2 ^ 32)
  have hdown : (x >>> 32).toNat = x.toNat / 2 ^ 32 := by
    rw [UInt64.toNat_shiftRight, Nat.shiftRight_eq_div_pow]
    rfl
  rw [swapHalves, UInt64.toNat_or, hup, hdown, ← Nat.shiftLeft_add_eq_or_of_lt hlt,
    Nat.shiftLeft_eq]

private theorem swapHalves_injective : Function.Injective swapHalves := by
  intro x y hxy
  have hnat := congrArg UInt64.toNat hxy
  rw [toNat_swapHalves, toNat_swapHalves] at hnat
  have hx := x.toNat_lt
  have hy := y.toNat_lt
  apply UInt64.toNat_inj.mp
  omega

/-- The lower half of a word: of the agent only the upper half gets there, and of the window a
multiple. -/
theorem toNat_word_mod (seed agent tick : UInt64) :
    (word seed agent tick).toNat % 2 ^ 32 =
      seed.toNat % 2 ^ 32 ^^^ agent.toNat / 2 ^ 32 ^^^
        (tick / windowTicks).toNat * 0x9E3779B9 % 2 ^ 32 := by
  have hagent : (swapHalves agent).toNat % 2 ^ 32 = agent.toNat / 2 ^ 32 := by
    have hlt := agent.toNat_lt
    rw [toNat_swapHalves]
    omega
  have hwindow : (tick / windowTicks * 0x9E3779B9).toNat % 2 ^ 32 =
      (tick / windowTicks).toNat * 0x9E3779B9 % 2 ^ 32 := by
    rw [UInt64.toNat_mul]
    exact Nat.mod_mod_of_dvd _ (Nat.pow_dvd_pow 2 (show 32 ≤ 64 by decide))
  rw [word, UInt64.toNat_xor, UInt64.toNat_xor, Nat.xor_mod_two_pow, Nat.xor_mod_two_pow, hagent,
    hwindow]

/-- Agents with the same upper half have words of their own in windows that fit in half a word. -/
theorem word_eq_iff {seed agent agent' tick tick' : UInt64}
    (hagents : agent.toNat / 2 ^ 32 = agent'.toNat / 2 ^ 32)
    (htick : (tick / windowTicks).toNat < 2 ^ 32) (htick' : (tick' / windowTicks).toNat < 2 ^ 32) :
    word seed agent tick = word seed agent' tick' ↔
      agent = agent' ∧ tick / windowTicks = tick' / windowTicks := by
  constructor
  · intro h
    have hlow := congrArg (fun w : UInt64 ↦ w.toNat % 2 ^ 32) h
    simp only [toNat_word_mod, hagents, Nat.xor_right_inj] at hlow
    have hwindow : tick / windowTicks = tick' / windowTicks :=
      UInt64.toNat_inj.mp (eq_of_odd_mul_mod (by decide) hlow htick htick')
    rw [word, word, hwindow, UInt64.xor_left_inj, UInt64.xor_right_inj] at h
    exact ⟨swapHalves_injective h, hwindow⟩
  · rintro ⟨rfl, hwindow⟩
    rw [word, word, hwindow]

/-- No two draws share a word. Mixing permutes the words, and as long as the agents and the windows
of the ticks fit in half a word, the words drawn for two agents on two ticks are the same exactly
when the agents are and the ticks lie in one window. -/
theorem draws_apart :
    Function.Bijective mix ∧
      ∀ seed agent agent' tick tick' : UInt64, agent.toNat < 2 ^ 32 → agent'.toNat < 2 ^ 32 →
        tick.toNat / 45 < 2 ^ 32 → tick'.toNat / 45 < 2 ^ 32 →
          (draw seed agent tick = draw seed agent' tick' ↔
            agent = agent' ∧ tick.toNat / 45 = tick'.toNat / 45) := by
  refine ⟨mix_bijective, fun seed agent agent' tick tick' hagent hagent' htick htick' ↦ ?_⟩
  have hwindow (t : UInt64) : (t / windowTicks).toNat = t.toNat / 45 := UInt64.toNat_div t 45
  have hagents : agent.toNat / 2 ^ 32 = agent'.toNat / 2 ^ 32 := by
    rw [Nat.div_eq_of_lt hagent, Nat.div_eq_of_lt hagent']
  rw [← hwindow] at htick htick'
  have hsame : tick / windowTicks = tick' / windowTicks ↔ tick.toNat / 45 = tick'.toNat / 45 := by
    rw [← UInt64.toNat_inj, hwindow, hwindow]
  rw [draw, draw, mix_injective.eq_iff, word_eq_iff hagents htick htick', hsame]

/-- The last agent and the last window within the bounds: the draw stays the same over the window,
and is neither that of the window before nor that of the agent before. -/
theorem draws_apart_last :
    let agent : UInt64 := 0xFFFFFFFF
    let tick : UInt64 := 45 * 0x100000000 - 1
    agent.toNat < 2 ^ 32 ∧ tick.toNat / 45 < 2 ^ 32 ∧
      draw 7 agent tick = draw 7 agent (tick - 44) ∧
      draw 7 agent tick ≠ draw 7 agent (tick - 45) ∧
      draw 7 agent tick ≠ draw 7 (agent - 1) tick := by
  intro agent tick
  have hagent : agent.toNat < 2 ^ 32 := by decide
  have htick : tick.toNat / 45 < 2 ^ 32 := by decide
  have hiff := draws_apart.2 7 agent
  refine ⟨hagent, htick, ?_, ?_, ?_⟩
  · exact (hiff agent tick (tick - 44) hagent hagent htick (by decide)).mpr (by decide)
  · exact (hiff agent tick (tick - 45) hagent hagent htick (by decide)).not.mpr (by decide)
  · exact (hiff (agent - 1) tick tick hagent (by decide) htick htick).not.mpr (by decide)

/-- Neither bound can be dropped: the first agent and the first window out of bounds share their
draws with others. -/
example :
    draw 7 0 (45 * 0x100000000) = draw 7 0x9E3779B9 0 ∧
      draw 7 0x100000000 0 = draw 7 0xC8BC280 (45 * 0x144CBC89) := by
  decide

end Threat

end BehaviorTree
