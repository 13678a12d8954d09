import Mathlib.Data.List.Basic
import TCBackup.Client.Chunking
import TCBackup.Lib.RollingHash
import TCBackup.Lib.XorLinear

/-!
# The rolling hash depends on its window only (`client/lib/rabin.c`)

`append8`, `T` and `U` are linear over exclusive or, and `U` is what 47 more bytes make of
a byte. So the fingerprint is the hash of the 48 bytes under the window, whatever was slid
through it before.

## Main definitions

- `rabinHash` — the hash of the window
- `window`, `Consistent` — the bytes under the window, and the fingerprint over them

## Main results

- `tableU_eq` — `U` cancels the oldest byte
- `Consistent.slide` — `SLIDE` moves the window on
- `Agree.breakmark` — after 48 bytes the break marks are the same
-/

namespace TCBackup.Client

open ByteFile RollingHash Words

theorem xorLinear_shl (i : ℕ) : XorLinear fun x => shl x i := fun _ _ => UInt64.shiftLeft_xor

theorem xorLinear_shr (i : ℕ) : XorLinear fun x => shr x i := fun _ _ => UInt64.shiftRight_xor

theorem bit_eq (v : UInt64) (i : ℕ) : bit v i = v.toNat.testBit (i % 64) := by
  have hvalue : (v >>> UInt64.ofNat i &&& 1).toNat = v.toNat >>> (i % 64) % 2 := by
    rw [UInt64.toNat_and, UInt64.toNat_shiftRight, UInt64.toNat_ofNat']
    have hmod : i % 2 ^ 64 % 64 = i % 64 := Nat.mod_mod_of_dvd i (by decide)
    rw [hmod]
    exact Nat.and_one_is_mod _
  have hone : (v >>> UInt64.ofNat i &&& 1 = 1) ↔ v.toNat >>> (i % 64) % 2 = 1 := by
    rw [← hvalue, ← UInt64.toNat_inj]
    rfl
  rw [bit, Nat.testBit_eq_decide_div_mod_eq, decide_eq_decide, hone, Nat.shiftRight_eq_div_pow]

theorem bit_xor (x y : UInt64) (i : ℕ) : bit (x ^^^ y) i = (bit x i != bit y i) := by
  rw [bit_eq, bit_eq, bit_eq, UInt64.toNat_xor]
  exact Nat.testBit_xor _ _ _

/-- One step of a reduction: `d` is added where the condition holds. -/
def addIf (b : Bool) (d x : UInt64) : UInt64 := if b then x ^^^ d else x

theorem addIf_xor (b c : Bool) (d x y : UInt64) :
    addIf (b != c) d (x ^^^ y) = addIf b d x ^^^ addIf c d y := by
  cases b <;> cases c
  · rfl
  · exact UInt64.xor_assoc x y d
  · show x ^^^ y ^^^ d = x ^^^ d ^^^ y
    rw [UInt64.xor_assoc, UInt64.xor_assoc, UInt64.xor_comm y]
  · show x ^^^ y = x ^^^ d ^^^ (y ^^^ d)
    rw [xor_xor_xor_comm, UInt64.xor_self, UInt64.xor_zero]

/-- Two words at once. -/
def addIf₂ (b : Bool) (d n : UInt64 × UInt64) : UInt64 × UInt64 :=
  (addIf b d.1 n.1, addIf b d.2 n.2)

theorem addIf₂_eq (b : Bool) (d n : UInt64 × UInt64) :
    (if b = true then (n.1 ^^^ d.1, n.2 ^^^ d.2) else n) = addIf₂ b d n := by
  cases b <;> rfl

def xor₂ (x y : UInt64 × UInt64) : UInt64 × UInt64 := (x.1 ^^^ y.1, x.2 ^^^ y.2)

theorem addIf₂_xor (b c : Bool) (d x y : UInt64 × UInt64) :
    addIf₂ (b != c) d (xor₂ x y) = xor₂ (addIf₂ b d x) (addIf₂ c d y) :=
  Prod.ext (addIf_xor b c d.1 x.1 y.1) (addIf_xor b c d.2 x.2 y.2)

theorem polymult_xor (x x' y : UInt64) :
    polymult (x ^^^ x') y = xor₂ (polymult x y) (polymult x' y) := by
  have hstart : ((0 : UInt64), addIf (bit (x ^^^ x') 0) y 0) =
      xor₂ (0, addIf (bit x 0) y 0) (0, addIf (bit x' 0) y 0) := by
    rw [bit_xor]
    exact Prod.ext UInt64.xor_self.symm (addIf_xor (bit x 0) (bit x' 0) y 0 0)
  have hfirst : ∀ x, (if bit x 0 = true then y else 0) = addIf (bit x 0) y 0 := by
    intro x
    cases bit x 0
    · rfl
    · exact (UInt64.zero_xor).symm
  rw [polymult, polymult, polymult, hfirst, hfirst, hfirst, hstart]
  refine List.foldl_hom₂ _ xor₂ _ _ _ _ _ fun a b i => ?_
  rw [bit_xor, addIf₂_eq (bit x i) (_, _), addIf₂_eq (bit x' i) (_, _),
    addIf₂_eq (bit x i != bit x' i) (_, _), addIf₂_xor]

/-- A step of `polymod` in the high word. -/
def highStep (d : UInt64) (n : UInt64 × UInt64) (i : ℕ) : UInt64 × UInt64 :=
  addIf₂ (bit n.1 i) (shr d (63 - i), shl d (i + 1)) n

/-- A step of `polymod` in the low word. -/
def lowStep (d : UInt64) (nl : UInt64) (i : ℕ) : UInt64 := addIf (bit nl i) (shr d (63 - i)) nl

theorem highStep_xor (d : UInt64) (x y : UInt64 × UInt64) (i : ℕ) :
    highStep d (xor₂ x y) i = xor₂ (highStep d x i) (highStep d y i) := by
  rw [highStep, highStep, highStep, ← addIf₂_xor, xor₂, bit_xor]

theorem lowStep_xor (d x y : UInt64) (i : ℕ) :
    lowStep d (x ^^^ y) i = lowStep d x i ^^^ lowStep d y i := by
  rw [lowStep, lowStep, lowStep, ← addIf_xor, bit_xor]

theorem polymod_eq (nh nl d : UInt64) :
    polymod nh nl d =
      ((List.range' (fls64 d - 1) (64 - (fls64 d - 1))).reverse).foldl
        (lowStep (shl d (63 - (fls64 d - 1))))
        (((List.range 63).reverse).foldl (highStep (shl d (63 - (fls64 d - 1))))
          (addIf (bit nh 63) (shl d (63 - (fls64 d - 1))) nh, nl)).2 := by
  have hstep : highStep (shl d (63 - (fls64 d - 1))) = fun n i =>
      if bit n.1 i then (n.1 ^^^ shr (shl d (63 - (fls64 d - 1))) (63 - i),
        n.2 ^^^ shl (shl d (63 - (fls64 d - 1))) (i + 1)) else n := by
    funext n i
    rw [highStep, ← addIf₂_eq]
  rw [hstep]
  rfl

theorem polymod_xor (n n' : UInt64 × UInt64) (d : UInt64) :
    polymod (xor₂ n n').1 (xor₂ n n').2 d = polymod n.1 n.2 d ^^^ polymod n'.1 n'.2 d := by
  rw [polymod_eq, polymod_eq, polymod_eq]
  obtain ⟨e, he⟩ : ∃ e, shl d (63 - (fls64 d - 1)) = e := ⟨_, rfl⟩
  rw [he]
  have hstart : (addIf (bit (xor₂ n n').1 63) e (xor₂ n n').1, (xor₂ n n').2) =
      xor₂ (addIf (bit n.1 63) e n.1, n.2) (addIf (bit n'.1 63) e n'.1, n'.2) := by
    refine Prod.ext ?_ rfl
    show addIf (bit (n.1 ^^^ n'.1) 63) e (n.1 ^^^ n'.1) = _
    rw [bit_xor, addIf_xor]
    rfl
  have hhigh := List.foldl_hom₂ ((List.range 63).reverse) xor₂ (highStep e) (highStep e)
    (highStep e) (addIf (bit n.1 63) e n.1, n.2) (addIf (bit n'.1 63) e n'.1, n'.2)
    fun a b i => (highStep_xor e a b i).symm
  rw [hstart, hhigh]
  exact List.foldl_hom₂ _ (· ^^^ ·) _ _ _ _ _ fun a b i => (lowStep_xor e a b i).symm

theorem xorLinear_polymmult (y d : UInt64) : XorLinear fun x => polymmult x y d := by
  intro x x'
  dsimp only
  rw [polymmult, polymult_xor, polymod_xor]
  rfl

theorem fls64_fingerprintPt : fls64 fingerprintPt = 64 := by decide +kernel

theorem bit_lowStep (n : UInt64) : bit (lowStep fingerprintPt n 63) 63 = false := by
  have hpoly : shr fingerprintPt (63 - 63) = fingerprintPt := by decide +kernel
  rw [lowStep, hpoly]
  cases hn : bit n 63 with
  | false => exact hn
  | true =>
    show bit (n ^^^ fingerprintPt) 63 = false
    rw [bit_xor, hn]
    decide +kernel

/-- A remainder has no bit in place of the polynomial's highest. -/
theorem bit_polymod (nh nl : UInt64) : bit (polymod nh nl fingerprintPt) 63 = false := by
  have hlast : (List.range' (64 - 1) (64 - (64 - 1))).reverse = [63] := rfl
  have hpoly : shl fingerprintPt (63 - (64 - 1)) = fingerprintPt := by decide +kernel
  rw [polymod_eq, fls64_fingerprintPt, hlast, hpoly, List.foldl_cons, List.foldl_nil]
  exact bit_lowStep _

theorem toNat_shl (x : UInt64) (i : ℕ) : (shl x i).toNat = x.toNat <<< (i % 64) % 2 ^ 64 := by
  rw [shl, UInt64.toNat_shiftLeft, UInt64.toNat_ofNat']
  have hmod : i % 2 ^ 64 % 64 = i % 64 := Nat.mod_mod_of_dvd i (by decide)
  rw [hmod]

/-- A multiple of the highest bit goes beside a remainder. -/
theorem and_shl_63 {a : UInt64} (h : bit a 63 = false) (x : UInt64) : a &&& shl x 63 = 0 := by
  rw [← UInt64.toNat_inj, UInt64.toNat_and, toNat_shl]
  refine Nat.eq_of_testBit_eq fun i => ?_
  rw [bit_eq] at h
  rw [Nat.testBit_and, Nat.testBit_mod_two_pow, Nat.testBit_shiftLeft]
  by_cases hi : i = 63
  · rw [hi]
    have h63 : a.toNat.testBit 63 = false := h
    rw [h63]
    rfl
  · have hout : ¬(i < 64 ∧ 63 ≤ i) := by omega
    by_cases hlt : i < 64
    · have hge : ¬63 ≤ i := fun hge => hout ⟨hlt, hge⟩
      simp [hge]
    · simp [hlt]

theorem and_shl_8 (p : UInt64) (m : UInt8) : shl p 8 &&& m.toUInt64 = 0 := by
  rw [← UInt64.toNat_inj, UInt64.toNat_and, toNat_shl]
  refine Nat.eq_of_testBit_eq fun i => ?_
  have hm : m.toUInt64.toNat < 2 ^ 8 := by
    rw [UInt8.toNat_toUInt64]
    exact m.toNat_lt
  rw [Nat.testBit_and, Nat.testBit_mod_two_pow, Nat.testBit_shiftLeft]
  by_cases hi : 8 ≤ i
  · have hbit : m.toUInt64.toNat.testBit i = false :=
      Nat.testBit_lt_two_pow (hm.trans_le (Nat.pow_le_pow_right (by decide) hi))
    rw [hbit, Bool.and_false]
    exact (Nat.zero_testBit i).symm
  · simp [hi]

theorem tableT_eq (x : UInt64) :
    tableT x.toNat = polymmult x (polymod 0 (shl 1 63) fingerprintPt) fingerprintPt ^^^ shl x 63 := by
  rw [tableT, fls64_fingerprintPt, UInt64.ofNat_toNat]
  exact or_eq_xor (and_shl_63 (bit_polymod _ _) x)

theorem xorLinear_tableT : XorLinear fun x => tableT x.toNat := by
  intro x y
  dsimp only
  rw [tableT_eq, tableT_eq, tableT_eq]
  exact (xorLinear_polymmult _ _).xor (xorLinear_shl 63) x y

/-- A byte of zeros is appended. -/
def shift8 (p : UInt64) : UInt64 := shl p 8 ^^^ tableT (shr p rabinShift).toNat

theorem xorLinear_shift8 : XorLinear shift8 :=
  (xorLinear_shl 8).xor (xorLinear_tableT.comp (xorLinear_shr rabinShift))

theorem append8_eq (p : UInt64) (m : UInt8) : append8 p m = shift8 p ^^^ m.toUInt64 := by
  rw [append8, or_eq_xor (and_shl_8 p m), shift8, UInt64.xor_assoc, UInt64.xor_assoc,
    UInt64.xor_comm m.toUInt64]

theorem append8_zero (p : UInt64) : append8 p 0 = shift8 p := by
  rw [append8_eq]
  exact UInt64.xor_zero

/-- The entries of `T` at single bits. -/
def basisT : List UInt64 :=
  [13827942727904890243, 9209141382100228870, 4646688091768732559, 4548086706303466141,
    9096173412606932282, 4872485406381467639, 4097061761524384365, 8194123523048768730,
    6667587467392746551]

def stepT (x a : UInt64) (k : ℕ) : UInt64 := addIf (bit x k) (basisT.getD k 0) a

/-- `T`, read off its entries at single bits. -/
def fastT (x : UInt64) : UInt64 := (List.range 9).foldl (stepT x) 0

theorem xorLinear_fastT : XorLinear fastT := by
  intro x y
  have hfold := List.foldl_hom₂ (List.range 9) (fun a b : UInt64 => a ^^^ b) (stepT x) (stepT y)
    (stepT (x ^^^ y)) 0 0 fun a b k => by
      rw [stepT, stepT, stepT, bit_xor, addIf_xor]
  rwa [UInt64.xor_self] at hfold

theorem basisT_eq : ∀ k < 9,
    tableT (UInt64.ofNat (2 ^ k)).toNat = fastT (UInt64.ofNat (2 ^ k)) := by decide +kernel

theorem shift8_eq : shift8 = fun p => shl p 8 ^^^ fastT (shr p 55) := by
  funext p
  have hshift : rabinShift = 55 := by
    rw [rabinShift, fls64_fingerprintPt]
  have hsmall : (shr p 55).toNat < 2 ^ 9 := by
    have hp := p.toNat_lt
    have hshr : (shr p 55).toNat = p.toNat / 2 ^ 55 := by
      rw [shr, UInt64.toNat_shiftRight, Nat.shiftRight_eq_div_pow]
      rfl
    rw [hshr]
    omega
  rw [shift8, hshift]
  have hT : tableT (shr p 55).toNat = fastT (shr p 55) :=
    xorLinear_tableT.ext xorLinear_fastT (by decide) basisT_eq hsmall
  rw [hT]

theorem sizeshift_eq : sizeshift = shift8^[47] 1 := by
  have hfold : ∀ (n : ℕ) (p : UInt64),
      (List.range n).foldl (fun p _ => append8 p 0) p = shift8^[n] p := by
    intro n
    induction n with
    | zero => exact fun _ => rfl
    | succ n ih =>
      intro p
      rw [List.range_succ, List.foldl_concat, ih, append8_zero, Function.iterate_succ_apply']
  exact hfold 47 1

theorem basisU_eq : ∀ k < 8, (fun p => shl p 8 ^^^ fastT (shr p 55))^[47] (UInt64.ofNat (2 ^ k)) =
    polymmult (UInt64.ofNat (2 ^ k)) ((fun p => shl p 8 ^^^ fastT (shr p 55))^[47] 1)
      fingerprintPt := by decide +kernel

/-- `U` is what 47 bytes behind it make of a byte. -/
theorem tableU_eq (e : UInt8) : tableU e.toNat = shift8^[47] e.toUInt64 := by
  have hsmall : e.toUInt64.toNat < 2 ^ 8 := by
    rw [UInt8.toNat_toUInt64]
    exact e.toNat_lt
  have hofNat : UInt64.ofNat e.toNat = e.toUInt64 := by
    rw [← UInt8.toNat_toUInt64, UInt64.ofNat_toNat]
  rw [tableU, sizeshift_eq, hofNat]
  refine ((xorLinear_shift8.iterate 47).ext (xorLinear_polymmult _ _) (by decide) ?_ hsmall).symm
  rw [shift8_eq]
  exact basisU_eq

/-- The rolling hash of `rabin.c`. -/
def rabinHash : Linear UInt64 UInt8 where
  zero := 0
  add := fun a b => a ^^^ b
  app := append8
  shift := shift8
  zero_add := fun _ => UInt64.zero_xor
  add_cancel := xor_cancel
  app_add := by
    intro a b m
    rw [append8_eq, append8_eq, xorLinear_shift8, UInt64.xor_assoc, UInt64.xor_assoc,
      UInt64.xor_comm (shift8 b)]

/-- The position as the next step treats it. -/
def place (r : Rabin) : ℕ := min r.bufpos (windowSize - 1)

theorem place_lt (r : Rabin) : place r < windowSize := by
  rw [place, windowSize]
  omega

/-- The bytes under the window, the oldest first. -/
def window (r : Rabin) : Bytes :=
  (List.range windowSize).map fun i => r.buf ((place r + 1 + i) % windowSize)

theorem length_window (r : Rabin) : (window r).length = windowSize := by
  rw [window, List.length_map, List.length_range]

/-- The fingerprint is the hash of the window. -/
def Consistent (r : Rabin) : Prop := r.fingerprint = rabinHash.hash (window r)

theorem slide_place (r : Rabin) (m : UInt8) : slide r m = slide { r with bufpos := place r } m := by
  have hpos : (if windowSize ≤ place r + 1 then 0 else place r + 1) =
      if windowSize ≤ r.bufpos + 1 then 0 else r.bufpos + 1 := by
    rw [place, windowSize]
    split <;> split <;> omega
  rw [slide, slide]
  dsimp only
  rw [hpos]

theorem place_of_lt {r : Rabin} (h : r.bufpos < windowSize) : place r = r.bufpos := by
  rw [place]
  rw [windowSize] at h ⊢
  omega

theorem window_place (r : Rabin) : window { r with bufpos := place r } = window r := by
  have hplace : place { r with bufpos := place r } = place r := place_of_lt (place_lt r)
  rw [window, window, hplace]

theorem window_slide_of_lt {r : Rabin} (h : r.bufpos < windowSize) (m : UInt8) :
    window (slide r m) = (window r).tail ++ [m] := by
  have hnext : (slide r m).bufpos < windowSize := by
    rw [slide_bufpos h]
    exact Nat.mod_lt _ (by decide)
  refine List.ext_getElem ?_ fun i hi hi' => ?_
  · simp [length_window, windowSize]
  · have hlt : i < windowSize := by simpa [window] using hi
    have hget : (window (slide r m))[i] =
        (slide r m).buf (((slide r m).bufpos + 1 + i) % windowSize) := by
      simp [window, place_of_lt hnext]
    refine hget.trans ?_
    rw [slide_buf h m hlt, List.getElem_append]
    by_cases hlast : i + 1 = windowSize
    · have hge : ¬i < (window r).tail.length := by
        rw [List.length_tail, length_window]
        omega
      rw [if_pos hlast, dif_neg hge, List.getElem_singleton]
    · have hin : i < (window r).tail.length := by
        rw [List.length_tail, length_window]
        omega
      rw [if_neg hlast, dif_pos hin, List.getElem_tail]
      simp [window, place_of_lt h]

theorem window_slide (r : Rabin) (m : UInt8) : window (slide r m) = (window r).tail ++ [m] := by
  rw [slide_place, window_slide_of_lt (place_lt r), window_place]

/-- `SLIDE` moves the window on. -/
theorem Consistent.slide {r : Rabin} (h : Consistent r) (m : UInt8) : Consistent (slide r m) := by
  obtain ⟨ws, hws⟩ : ∃ ws, window r = r.buf ((place r + 1) % windowSize) :: ws := by
    rw [window, show windowSize = 47 + 1 from rfl, List.range_succ_eq_map, List.map_cons]
    exact ⟨_, rfl⟩
  have hlength : ws.length = 47 := by
    have hall := length_window r
    rw [hws, List.length_cons, windowSize] at hall
    omega
  have hU : tableU (r.buf ((place r + 1) % windowSize)).toNat =
      shift8^[47] (append8 0 (r.buf ((place r + 1) % windowSize))) := by
    rw [tableU_eq, append8_eq, xorLinear_shift8.zero, UInt64.zero_xor]
  rw [Consistent, window_slide, hws, List.tail_cons, ← rabinHash.roll, hlength, ← hws, ← h,
    slide_place, slide_fingerprint (place_lt r), hU]
  rfl

theorem window_reset (r : Rabin) : window r.reset = List.replicate windowSize 0 := by
  rw [window, List.eq_replicate_iff, List.length_map, List.length_range]
  refine ⟨rfl, fun b hb => ?_⟩
  obtain ⟨i, -, hi⟩ := List.mem_map.mp hb
  exact hi.symm

theorem consistent_reset (r : Rabin) : Consistent r.reset := by
  have hzero : append8 0 0 = 0 := by rw [append8_zero, xorLinear_shift8.zero]
  have hhash : ∀ n, rabinHash.hash (List.replicate n 0) = 0 := by
    intro n
    induction n with
    | zero => rfl
    | succ n ih =>
      rw [List.replicate_succ', rabinHash.hash_concat, ih]
      exact hzero
  rw [Consistent, window_reset, hhash]
  rfl

/-- The last `k` bytes under both windows are the same. -/
def Agree (k : ℕ) (r r' : Rabin) : Prop :=
  (window r).drop (windowSize - k) = (window r').drop (windowSize - k)

theorem agree_zero (r r' : Rabin) : Agree 0 r r' := by
  rw [Agree, List.drop_of_length_le (by rw [length_window]; omega),
    List.drop_of_length_le (by rw [length_window]; omega)]

theorem drop_window_slide (r : Rabin) (m : UInt8) {k : ℕ} (hk : k < windowSize) :
    (window (slide r m)).drop (windowSize - (k + 1)) =
      (window r).drop (windowSize - k) ++ [m] := by
  have hle : windowSize - (k + 1) ≤ (window r).tail.length := by
    rw [List.length_tail, length_window]
    omega
  have hnum : windowSize - (k + 1) + 1 = windowSize - k := by omega
  rw [window_slide, List.drop_append_of_le_length hle, ← List.drop_one, List.drop_drop,
    Nat.add_comm 1, hnum]

theorem Agree.slide {k : ℕ} {r r' : Rabin} (h : Agree k r r') (m : UInt8) :
    Agree (k + 1) (slide r m) (slide r' m) := by
  by_cases hk : k < windowSize
  · rw [Agree, drop_window_slide r m hk, drop_window_slide r' m hk, h]
  · have hzero : windowSize - k = 0 := by omega
    have hzero' : windowSize - (k + 1) = 0 := by omega
    rw [Agree, hzero, List.drop_zero, List.drop_zero] at h
    rw [Agree, hzero', List.drop_zero, List.drop_zero, window_slide, window_slide, h]

/-- After 48 bytes the fingerprint depends on them only. -/
theorem Agree.breakmark {k : ℕ} {r r' : Rabin} (h : Agree k r r') (hk : windowSize ≤ k)
    (hr : Consistent r) (hr' : Consistent r') : breakmark r = breakmark r' := by
  have hzero : windowSize - k = 0 := by omega
  rw [Agree, hzero, List.drop_zero, List.drop_zero] at h
  rw [Client.breakmark, Client.breakmark, hr, hr', h]

end TCBackup.Client
