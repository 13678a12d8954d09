import TCBackup.Client.Polynomials

/-!
# The fingerprint of the last 48 bytes (`client/lib/rabin.c`)

The static variables of `rabin.c` and what `chunk_alg_init` and `SLIDE` do to them. Reading
outside of `T`, `U` or `buf`, or shifting by 64 places or more, leaves a function without a
value.

## Main definitions

- `Globals` — the static variables
- `chunkAlgInit`, `slide` — the functions
- `history` — files that were fed one after the other
- `lastBytes` — the last 48 bytes, with zeros in front

## Main results

- `value_append8` — a byte is appended to a polynomial
- `Ready.slide` — `SLIDE` is that of the window
- `fingerprint_of_last_bytes` — the fingerprint is the remainder of the last 48 bytes
-/

namespace TCBackup.Client.RollingFingerprint

open ByteFile Words BinaryPoly Polynomial
open Polynomials (lshift rshift value value₂)

structure Globals where
  rabin_init_flag : Bool
  fingerprint : UInt64
  bufpos : ℤ
  U : List UInt64
  buf : Bytes
  shift : ℤ
  T : List UInt64
  poly : UInt64

/-- The variables of a program that starts. -/
def start : Globals :=
  { rabin_init_flag := false
    fingerprint := 0
    bufpos := 0
    U := List.replicate 256 0
    buf := List.replicate windowSize 0
    shift := 0
    T := List.replicate 256 0
    poly := 0 }

/-- `append8` -/
def append8 (g : Globals) (p : UInt64) (m : UInt8) : Option UInt64 := do
  let x ← rshift p g.shift
  let t ← g.T[x.toNat]?
  return ((← lshift p 8) ||| m.toUInt64) ^^^ t

/-- The entry for `j` in the loop of `calcT`. -/
def entryT (poly T1 : UInt64) (xshift : ℤ) (j : ℕ) : Option UInt64 := do
  return (← Polynomials.polymmult (UInt64.ofNat j) T1 poly) ||| (← lshift (UInt64.ofNat j) xshift)

/-- `calcT` -/
def calcT (g : Globals) : Option Globals := do
  let xshift : ℤ := (← Polynomials.fls64 g.poly) - 1
  let T1 ← Polynomials.polymod 0 (← lshift 1 xshift) g.poly
  let T ← (List.range 256).mapM (entryT g.poly T1 xshift)
  return { g with shift := xshift - 8, T := T }

/-- `rabinpoly_init` -/
def rabinpolyInit (g : Globals) (p : UInt64) : Option Globals := calcT { g with poly := p }

/-- `window_init` -/
def windowInit (g : Globals) (poly : UInt64) : Option Globals := do
  let g ← rabinpolyInit g poly
  let g := { g with fingerprint := 0, bufpos := -1 }
  let sizeshift ← (List.range' 1 (windowSize - 1)).foldlM (fun p _ => append8 g p 0) 1
  let U ← (List.range 256).mapM fun i => Polynomials.polymmult (UInt64.ofNat i) sizeshift poly
  return { g with U := U, buf := List.replicate windowSize 0 }

/-- `windows_reset` -/
def windowsReset (g : Globals) : Globals :=
  { g with fingerprint := 0, buf := List.replicate windowSize 0 }

/-- `chunk_alg_init` -/
def chunkAlgInit (g : Globals) : Option Globals := do
  let g ←
    if g.rabin_init_flag then some g
    else (windowInit g fingerprintPt).map fun g => { g with rabin_init_flag := true }
  return windowsReset g

/-- `bufpos` after `++bufpos` and the wrap. -/
def nextPos (g : Globals) : ℤ := if (windowSize : ℤ) ≤ g.bufpos + 1 then 0 else g.bufpos + 1

/-- `fingerprint ^= U[om]` -/
def withoutOldest (g : Globals) : Option UInt64 := do
  let om ← g.buf[(nextPos g).toNat]?
  return g.fingerprint ^^^ (← g.U[om.toNat]?)

/-- The `x` of `SLIDE`. -/
def slideIndex (g : Globals) : Option UInt64 := do rshift (← withoutOldest g) g.shift

/-- `SLIDE` -/
def slide (g : Globals) (m : UInt8) : Option Globals := do
  let x ← slideIndex g
  let fingerprint := (← lshift (← withoutOldest g) 8) ||| m.toUInt64
  return { g with
    fingerprint := fingerprint ^^^ (← g.T[x.toNat]?)
    bufpos := nextPos g
    buf := g.buf.set (nextPos g).toNat m }

/-- A file that is fed through `SLIDE` after `chunk_alg_init`. -/
def feed (g : Globals) (bs : Bytes) : Option Globals := do (← chunkAlgInit g) |> bs.foldlM slide

/-- The files that were fed earlier, and the bytes fed so far. -/
def history (earlier : List Bytes) (bs : Bytes) : Option Globals := do
  feed (← earlier.foldlM feed start) bs

/-- The last 48 bytes, with zeros for missing ones. -/
def lastBytes (bs : Bytes) : Bytes := (List.replicate windowSize 0 ++ bs).drop bs.length

/-- The number that the bytes spell, the newest byte lowest. -/
def spelled (bs : Bytes) : ℕ := bs.foldl (fun n b => 2 ^ 8 * n + b.toNat) 0

theorem fingerprintPt_ne_zero : fingerprintPt ≠ 0 := by decide

theorem value_shl_one : value (shl 1 63) = X ^ 63 := by
  have hpow : (shl 1 63).toNat = 2 ^ 63 * 1 := by decide
  rw [value, hpow, poly_two_pow_mul, poly_one, mul_one]

theorem rabinShift_eq : rabinShift = 55 := by rw [rabinShift, fls64_fingerprintPt]

/-- The bits above the 64th are those that `T` stands for. -/
theorem value_shl_add (p : UInt64) :
    value (shl p 8) + value (shl (shr p 55) 63) = X ^ 8 * value p + X ^ 63 * value (shr p 55) := by
  have hp := Polynomials.value₂_shift (i := 8) (by decide) (by decide) p
  have hx := Polynomials.value₂_shift (i := 63) (by decide) (by decide) (shr p 55)
  have hsame : shr (shr p 55) (64 - 63) = shr p (64 - 8) := by
    rw [← UInt64.toNat_inj, Polynomials.toNat_shr (by decide), Polynomials.toNat_shr (by decide),
      Polynomials.toNat_shr (by decide), Nat.div_div_eq_div_mul, ← pow_add]
  rw [← hp, ← hx, hsame, value₂, value₂]
  dsimp only
  rw [add_add_add_comm (value (shr p (64 - 8)) * X ^ 64), CharTwo.add_self_eq_zero, zero_add]

theorem append8_eq_sum (p : UInt64) (m : UInt8) : Client.append8 p m =
    shl p 8 ^^^ (Client.polymmult (shr p 55) (Client.polymod 0 (shl 1 63) fingerprintPt)
      fingerprintPt ^^^ shl (shr p 55) 63) ^^^ m.toUInt64 := by
  rw [append8_eq, shift8, rabinShift_eq, tableT_eq]

theorem lt_of_bit {v : UInt64} (h : bit v 63 = false) : v.toNat < 2 ^ 63 := by
  rw [bit_eq] at h
  have hzero := xor_lt_two_pow (b := 0) v.toNat_lt (by positivity) (h.trans (Nat.zero_testBit 63).symm)
  rwa [Nat.xor_zero] at hzero

/-- The carry into bit 63 is taken back. -/
theorem bit_append8 (p : UInt64) (m : UInt8) : bit (Client.append8 p m) 63 = false := by
  have hm : bit m.toUInt64 63 = false := by
    rw [bit_eq, UInt8.toNat_toUInt64]
    exact Nat.testBit_lt_two_pow (m.toNat_lt.trans (by decide))
  have hcarry : bit (shl p 8) 63 = bit (shl (shr p 55) 63) 63 := by
    rw [bit_eq, bit_eq, toNat_shl, toNat_shl, Polynomials.toNat_shr (by decide), Nat.testBit_mod_two_pow,
      Nat.testBit_mod_two_pow, Nat.testBit_shiftLeft, Nat.testBit_shiftLeft, Nat.testBit_div_two_pow]
    rfl
  rw [append8_eq_sum, bit_xor, bit_xor, bit_xor, hm, hcarry, Client.polymmult, bit_polymod]
  cases bit (shl (shr p 55) 63) 63 <;> rfl

/-- `append8` appends a byte to a polynomial. -/
theorem value_append8 (p : UInt64) (m : UInt8) : value (Client.append8 p m) =
    (X ^ 8 * value p + poly m.toNat) % value fingerprintPt := by
  have hne : fingerprintPt.toNat ≠ 0 := fun h => fingerprintPt_ne_zero (UInt64.toNat_inj.mp h)
  have hsize : fingerprintPt.toNat.size - 1 = 63 := by
    rw [← Client.fls64, fls64_fingerprintPt]
  have hown : value (Client.append8 p m) % value fingerprintPt = value (Client.append8 p m) :=
    poly_mod_of_lt hne (by rw [hsize]; exact lt_of_bit (bit_append8 p m))
  have hmod : value (Client.polymod 0 (shl 1 63) fingerprintPt) = X ^ 63 % value fingerprintPt := by
    rw [(Polynomials.value_polymod _ _ fingerprintPt_ne_zero).1, value₂, value_shl_one]
    simp [value]
  have hT : value (Client.polymmult (shr p 55) (Client.polymod 0 (shl 1 63) fingerprintPt)
      fingerprintPt) = X ^ 63 * value (shr p 55) % value fingerprintPt := by
    rw [Client.polymmult, (Polynomials.value_polymod _ _ fingerprintPt_ne_zero).1]
    have hprod := Polynomials.value₂_polymult (shr p 55)
      (Client.polymod 0 (shl 1 63) fingerprintPt)
    refine (congrArg (· % value fingerprintPt) hprod).trans ?_
    rw [hmod, mul_mod_mod, mul_comm]
  have hbyte : value m.toUInt64 = poly m.toNat := by rw [value, UInt8.toNat_toUInt64]
  have hsum : value (Client.append8 p m) = X ^ 8 * value p + poly m.toNat +
      (X ^ 63 * value (shr p 55) + X ^ 63 * value (shr p 55) % value fingerprintPt) := by
    have hcarry := value_shl_add p
    rw [append8_eq_sum, Polynomials.value_xor, Polynomials.value_xor, Polynomials.value_xor, hT, hbyte]
    calc _ = value (shl p 8) + value (shl (shr p 55) 63) +
          X ^ 63 * value (shr p 55) % value fingerprintPt + poly m.toNat := by ring
      _ = _ := by
        rw [hcarry]
        ring
  rw [← hown, hsum, add_mod, add_mod (X ^ 63 * value (shr p 55)), mod_mod,
    CharTwo.add_self_eq_zero, add_zero]

/-- The hash of the bytes is the remainder of what they spell. -/
theorem value_hash (ws : Bytes) :
    value (rabinHash.hash ws) = poly (spelled ws) % value fingerprintPt := by
  induction ws using List.reverseRecOn with
  | nil =>
    rw [spelled, List.foldl_nil, poly_zero, EuclideanDomain.zero_mod]
    exact poly_zero
  | append_singleton ws m ih =>
    have hspelled : spelled (ws ++ [m]) = 2 ^ 8 * spelled ws + m.toNat := List.foldl_concat ..
    rw [rabinHash.hash_concat, hspelled, poly_two_pow_mul_add _ m.toNat_lt]
    refine (value_append8 _ m).trans ?_
    rw [ih, add_mod, mul_mod_mod, ← add_mod]

theorem mapM_eq_some {α β : Type*} {f : α → Option β} {g : α → β} {l : List α}
    (h : ∀ a ∈ l, f a = some (g a)) : l.mapM f = some (l.map g) := by
  induction l with
  | nil => rfl
  | cons a l ih =>
    rw [List.mapM_cons, h a List.mem_cons_self, ih fun a ha => h a (List.mem_cons_of_mem _ ha)]
    rfl

/-- The tables hold what they should. -/
structure Tables (g : Globals) : Prop where
  T : g.T = (List.range 256).map tableT
  U : g.U = (List.range 256).map tableU
  shift : g.shift = (55 : ℕ)

theorem getElem?_map_range {f : ℕ → UInt64} {j : ℕ} (hj : j < 256) :
    ((List.range 256).map f)[j]? = some (f j) := by
  rw [List.getElem?_map, List.getElem?_range hj, Option.map_some]

/-- Below 2^63 the index is inside of `T`. -/
theorem index_lt {v : UInt64} (h : bit v 63 = false) : (shr v 55).toNat < 256 := by
  have hlt := lt_of_bit h
  rw [Polynomials.toNat_shr (by decide)]
  omega

theorem append8_eq_some {g : Globals} (hT : g.T = (List.range 256).map tableT)
    (hshift : g.shift = (55 : ℕ)) {p : UInt64} (hp : bit p 63 = false) (m : UInt8) :
    append8 g p m = some (Client.append8 p m) := by
  have h8 : lshift p 8 = some (shl p 8) := Polynomials.lshift_eq (i := 8) (by decide) p
  rw [append8, hshift, Polynomials.rshift_eq (by decide), hT, h8, Client.append8, rabinShift_eq]
  simp only [Option.bind_eq_bind, Option.bind_some, getElem?_map_range (index_lt hp)]
  rfl

theorem calcT_eq_some {g : Globals} {k : ℕ} {v T1 : UInt64} {T : List UInt64}
    (hfls : Polynomials.fls64 g.poly = some (k + 1)) (hv : lshift 1 k = some v)
    (hT1 : Polynomials.polymod 0 v g.poly = some T1)
    (hT : (List.range 256).mapM (entryT g.poly T1 k) = some T) :
    calcT g = some { g with shift := k - 8, T := T } := by
  have hxshift : ((k + 1 : ℕ) : ℤ) - 1 = k := by omega
  rw [calcT, hfls]
  simp only [Option.bind_eq_bind, Option.bind_some, hxshift, hv, hT1, hT]
  rfl

theorem calcT_eq {g : Globals} (hpoly : g.poly = fingerprintPt) :
    calcT g = some { g with shift := (55 : ℕ), T := (List.range 256).map tableT } := by
  have hfls : Polynomials.fls64 g.poly = some (63 + 1) := by
    rw [hpoly, Polynomials.fls64_eq, fls64_fingerprintPt]
  have hT1 : Polynomials.polymod 0 (shl 1 63) g.poly =
      some (Client.polymod 0 (shl 1 63) fingerprintPt) := by
    rw [hpoly]
    exact Polynomials.polymod_eq _ _ fingerprintPt_ne_zero
  refine calcT_eq_some hfls (Polynomials.lshift_eq (by decide) 1) hT1 (mapM_eq_some fun j _ => ?_)
  rw [hpoly, entryT, Polynomials.polymmult_eq _ _ fingerprintPt_ne_zero,
    Polynomials.lshift_eq (by decide), tableT, fls64_fingerprintPt]
  rfl

theorem foldlM_append8 {g : Globals} (hT : g.T = (List.range 256).map tableT)
    (hshift : g.shift = (55 : ℕ)) (l : List ℕ) {p : UInt64} (hp : bit p 63 = false) :
    l.foldlM (fun p _ => append8 g p 0) p = some (l.foldl (fun p _ => Client.append8 p 0) p) := by
  induction l generalizing p with
  | nil => rfl
  | cons j l ih =>
    rw [List.foldlM_cons, append8_eq_some hT hshift hp]
    exact ih (bit_append8 p 0)

theorem windowInit_eq_some {g g₁ : Globals} {poly sizeshift : UInt64} {U : List UInt64}
    (hinit : rabinpolyInit g poly = some g₁)
    (hsizeshift : (List.range' 1 (windowSize - 1)).foldlM
      (fun p _ => append8 { g₁ with fingerprint := 0, bufpos := -1 } p 0) 1 = some sizeshift)
    (hU : (List.range 256).mapM
      (fun i => Polynomials.polymmult (UInt64.ofNat i) sizeshift poly) = some U) :
    windowInit g poly = some { g₁ with
      fingerprint := 0, bufpos := -1, U := U, buf := List.replicate windowSize 0 } := by
  rw [windowInit, hinit]
  simp only [Option.bind_eq_bind, Option.bind_some, hsizeshift, hU]
  rfl

/-- The variables after the first `window_init`. -/
def initialized (g : Globals) : Globals :=
  { g with
    poly := fingerprintPt
    shift := (55 : ℕ)
    T := (List.range 256).map tableT
    U := (List.range 256).map tableU
    fingerprint := 0
    bufpos := -1
    buf := List.replicate windowSize 0 }

theorem windowInit_eq (g : Globals) : windowInit g fingerprintPt = some (initialized g) := by
  have hsizeshift : (List.range' 1 (windowSize - 1)).foldl (fun p _ => Client.append8 p 0) 1 =
      sizeshift := by
    rw [sizeshift, List.range'_eq_map_range, List.foldl_map]
    rfl
  have hU : (List.range 256).mapM
      (fun i => Polynomials.polymmult (UInt64.ofNat i) sizeshift fingerprintPt) =
        some ((List.range 256).map tableU) :=
    mapM_eq_some fun i _ => Polynomials.polymmult_eq _ _ fingerprintPt_ne_zero
  refine windowInit_eq_some (calcT_eq rfl) ?_ hU
  rw [foldlM_append8 rfl rfl _ (by decide), hsizeshift]

/-- The variables between two calls, after the first `chunk_alg_init`. -/
structure Ready (g : Globals) : Prop extends Tables g where
  rabin_init_flag : g.rabin_init_flag = true
  buf : g.buf.length = windowSize
  bufpos : -1 ≤ g.bufpos ∧ g.bufpos < windowSize
  fingerprint : bit g.fingerprint 63 = false

def toRabin (g : Globals) : Rabin :=
  { fingerprint := g.fingerprint
    bufpos := if g.bufpos = -1 then windowSize - 1 else g.bufpos.toNat
    buf := fun i => g.buf.getD i 0 }

variable {g : Globals}

theorem Ready.nextPos_spec (h : Ready g) : (nextPos g).toNat < windowSize ∧ -1 ≤ nextPos g ∧
    (nextPos g).toNat = if windowSize ≤ (toRabin g).bufpos + 1 then 0 else (toRabin g).bufpos + 1 := by
  obtain ⟨hlow, hhigh⟩ := h.bufpos
  rw [nextPos, toRabin]
  rw [windowSize] at hhigh ⊢
  dsimp only
  split
  · split <;> split <;> omega
  · split <;> split <;> omega

theorem bit_tableU (i : ℕ) : bit (tableU i) 63 = false := bit_polymod _ _

theorem Ready.withoutOldest_eq (h : Ready g) : withoutOldest g =
    some (g.fingerprint ^^^ tableU (g.buf.getD (nextPos g).toNat 0).toNat) := by
  have hpos : (nextPos g).toNat < g.buf.length := by
    rw [h.buf]
    exact h.nextPos_spec.1
  rw [withoutOldest, List.getElem?_eq_getElem hpos, h.U, List.getD_eq_getElem _ _ hpos]
  simp only [Option.bind_eq_bind, Option.bind_some, getElem?_map_range (UInt8.toNat_lt _)]
  rfl

theorem Ready.bit_withoutOldest (h : Ready g) (i : ℕ) : bit (g.fingerprint ^^^ tableU i) 63 = false := by
  rw [bit_xor, h.fingerprint, bit_tableU]
  rfl

theorem Ready.slideIndex_lt (h : Ready g) : ∃ x, slideIndex g = some x ∧ x.toNat < 256 := by
  refine ⟨shr (g.fingerprint ^^^ tableU (g.buf.getD (nextPos g).toNat 0).toNat) 55, ?_,
    index_lt (h.bit_withoutOldest _)⟩
  rw [slideIndex, h.withoutOldest_eq, h.shift]
  exact Polynomials.rshift_eq (show 55 < 64 by decide) _

/-- `SLIDE` is the step of the rolling hash. -/
theorem Ready.slide_eq (h : Ready g) (m : UInt8) :
    ∃ g', slide g m = some g' ∧ Ready g' ∧ toRabin g' = Client.slide (toRabin g) m := by
  obtain ⟨hpos, hlow, hnext⟩ := h.nextPos_spec
  obtain ⟨x, hx⟩ : ∃ x, g.fingerprint ^^^ tableU (g.buf.getD (nextPos g).toNat 0).toNat =
    x := ⟨_, rfl⟩
  have hbit : bit x 63 = false := hx ▸ h.bit_withoutOldest _
  have h8 : lshift x 8 = some (shl x 8) := Polynomials.lshift_eq (i := 8) (by decide) x
  have hhigh : nextPos g < windowSize := by omega
  have hrun : slide g m = some { g with
      fingerprint := Client.append8 x m
      bufpos := nextPos g
      buf := g.buf.set (nextPos g).toNat m } := by
    rw [slide, slideIndex, h.withoutOldest_eq, h.shift, hx, h.T]
    simp only [Option.bind_eq_bind, Option.bind_some, Polynomials.rshift_eq (show 55 < 64 by decide), h8,
      getElem?_map_range (index_lt hbit)]
    rw [Client.append8, rabinShift_eq]
    rfl
  refine ⟨_, hrun, ⟨⟨h.T, h.U, h.shift⟩, h.rabin_init_flag, ?_, ⟨hlow, hhigh⟩, bit_append8 x m⟩, ?_⟩
  · rw [List.length_set]
    exact h.buf
  · have hnonneg : nextPos g ≠ -1 := by
      have hb := h.bufpos.1
      rw [nextPos]
      split <;> omega
    have hbuf : (fun i => (g.buf.set (nextPos g).toNat m).getD i 0) =
        Function.update (fun i => g.buf.getD i 0) (nextPos g).toNat m := by
      funext i
      by_cases hi : i = (nextPos g).toNat
      · subst hi
        rw [Function.update_self, List.getD_eq_getElem?_getD, List.getElem?_set_self (by rw [h.buf]; exact hpos)]
        rfl
      · rw [Function.update_of_ne hi, List.getD_eq_getElem?_getD, List.getElem?_set_ne (Ne.symm hi),
          List.getD_eq_getElem?_getD]
    rw [toRabin, if_neg hnonneg, hbuf, Client.slide, ← hnext, ← hx]
    rfl

theorem Ready.reset (h : Tables g) (hflag : g.rabin_init_flag = true)
    (hpos : -1 ≤ g.bufpos ∧ g.bufpos < windowSize) : Ready (windowsReset g) :=
  ⟨⟨h.T, h.U, h.shift⟩, hflag, List.length_replicate, hpos, show bit 0 63 = false by decide⟩

/-- `chunk_alg_init` at the start and after files. -/
theorem chunkAlgInit_spec (h : g = start ∨ Ready g) : ∃ g', chunkAlgInit g = some (windowsReset g') ∧
    Ready (windowsReset g') := by
  rcases h with rfl | h
  · refine ⟨{ initialized start with rabin_init_flag := true }, ?_,
      Ready.reset ⟨rfl, rfl, rfl⟩ rfl ⟨?_, ?_⟩⟩
    · rw [chunkAlgInit, windowInit_eq]
      rfl
    · exact le_refl (-1 : ℤ)
    · exact show (-1 : ℤ) < windowSize by decide
  · refine ⟨g, ?_, Ready.reset h.toTables h.rabin_init_flag h.bufpos⟩
    rw [chunkAlgInit, h.rabin_init_flag]
    rfl

/-- The fingerprint belongs to the window, which is the end of what was fed. -/
structure Fed (g : Globals) (bs : Bytes) : Prop extends Ready g where
  consistent : Consistent (toRabin g)
  window : window (toRabin g) = lastBytes bs

theorem lastBytes_concat (bs : Bytes) (m : UInt8) : lastBytes (bs ++ [m]) = (lastBytes bs).tail ++ [m] := by
  have hle : bs.length + 1 ≤ (List.replicate windowSize 0 ++ bs).length := by
    rw [List.length_append, List.length_replicate, windowSize]
    omega
  rw [lastBytes, lastBytes, List.length_append, List.length_singleton, ← List.append_assoc,
    List.drop_append_of_le_length hle, List.tail_drop]

theorem Fed.slide_eq {bs : Bytes} (h : Fed g bs) (m : UInt8) :
    ∃ g', slide g m = some g' ∧ Fed g' (bs ++ [m]) := by
  obtain ⟨g', hrun, hready, hsame⟩ := h.toReady.slide_eq m
  refine ⟨g', hrun, hready, ?_, ?_⟩
  · rw [hsame]
    exact h.consistent.slide m
  · rw [hsame, window_slide, h.window, lastBytes_concat]

theorem Fed.foldlM {bs bs' : Bytes} (h : Fed g bs) :
    ∃ g', bs'.foldlM slide g = some g' ∧ Fed g' (bs ++ bs') := by
  induction bs' generalizing g bs with
  | nil => exact ⟨g, rfl, by rwa [List.append_nil]⟩
  | cons m bs' ih =>
    obtain ⟨g₁, hslide, h₁⟩ := h.slide_eq m
    obtain ⟨g₂, hrun, h₂⟩ := ih h₁
    rw [← List.append_cons] at h₂
    refine ⟨g₂, ?_, h₂⟩
    rw [List.foldlM_cons, hslide]
    exact hrun

/-- A file from its `chunk_alg_init` on. -/
theorem feed_spec (h : g = start ∨ Ready g) (bs : Bytes) : ∃ g', feed g bs = some g' ∧ Fed g' bs := by
  obtain ⟨g₀, hinit, hready⟩ := chunkAlgInit_spec h
  have hreset : Consistent (toRabin (windowsReset g₀)) ∧
      window (toRabin (windowsReset g₀)) = lastBytes [] := by
    have hsame : toRabin (windowsReset g₀) = (toRabin g₀).reset := by
      rw [toRabin, windowsReset, Rabin.reset]
      congr 1
      funext i
      rw [List.getD_eq_getElem?_getD, List.getElem?_replicate]
      split <;> rfl
    rw [hsame]
    refine ⟨consistent_reset _, ?_⟩
    rw [window_reset, lastBytes, List.append_nil]
    rfl
  obtain ⟨g', hrun, hfed⟩ := (⟨hready, hreset.1, hreset.2⟩ : Fed (windowsReset g₀) []).foldlM
  refine ⟨g', ?_, hfed⟩
  rw [feed, hinit]
  exact hrun

theorem history_spec (earlier : List Bytes) (bs : Bytes) :
    ∃ g, history earlier bs = some g ∧ Fed g bs := by
  have hearlier : ∀ {g}, g = start ∨ Ready g →
      ∃ g', earlier.foldlM feed g = some g' ∧ (g' = start ∨ Ready g') := by
    induction earlier with
    | nil => exact fun {g} h => ⟨g, rfl, h⟩
    | cons file earlier ih =>
      intro g h
      obtain ⟨g₁, hfeed, h₁⟩ := feed_spec h file
      obtain ⟨g₂, hrun, h₂⟩ := ih (.inr h₁.toReady)
      refine ⟨g₂, ?_, h₂⟩
      rw [List.foldlM_cons, hfeed]
      exact hrun
  obtain ⟨g₁, hrun, h₁⟩ := hearlier (.inl rfl)
  obtain ⟨g₂, hfeed, h₂⟩ := feed_spec h₁ bs
  refine ⟨g₂, ?_, h₂⟩
  rw [history, hrun]
  exact hfeed

theorem Fed.value_fingerprint {bs : Bytes} (h : Fed g bs) :
    value g.fingerprint = poly (spelled (lastBytes bs)) % value fingerprintPt := by
  have hhash : g.fingerprint = rabinHash.hash (lastBytes bs) := by
    rw [← h.window]
    exact h.consistent
  rw [hhash, value_hash]

theorem degree_fingerprintPt : (value fingerprintPt).degree = (63 : ℕ) := by
  have hsize : fingerprintPt.toNat.size - 1 = 63 := by
    rw [← Client.fls64, fls64_fingerprintPt]
  rw [value, degree_poly fun h => fingerprintPt_ne_zero (UInt64.toNat_inj.mp h), hsize]

/-- The fingerprint is the remainder of the last 48 bytes, the indices stay inside of `T`, and
histories that end in the same bytes have the same fingerprint. -/
theorem fingerprint_of_last_bytes :
    (value fingerprintPt).degree = (63 : ℕ) ∧
      (∀ earlier bs, ∃ g, history earlier bs = some g ∧
        value g.fingerprint = poly (spelled (lastBytes bs)) % value fingerprintPt ∧
        g.fingerprint.toNat < 2 ^ 63 ∧
        (∃ x, rshift g.fingerprint g.shift = some x ∧ x.toNat < 256) ∧
        ∃ x, slideIndex g = some x ∧ x.toNat < 256) ∧
      ∀ earlier bs earlier' bs' g g', history earlier bs = some g → history earlier' bs' = some g' →
        lastBytes bs = lastBytes bs' → g.fingerprint = g'.fingerprint := by
  refine ⟨degree_fingerprintPt, fun earlier bs => ?_, ?_⟩
  · obtain ⟨g, hrun, hfed⟩ := history_spec earlier bs
    refine ⟨g, hrun, hfed.value_fingerprint, lt_of_bit hfed.fingerprint, ⟨_, ?_,
      index_lt hfed.fingerprint⟩, hfed.slideIndex_lt⟩
    rw [hfed.shift]
    exact Polynomials.rshift_eq (by decide) _
  · intro earlier bs earlier' bs' g g' hrun hrun' hlast
    obtain ⟨g₁, hrun₁, hfed⟩ := history_spec earlier bs
    obtain ⟨g₂, hrun₂, hfed'⟩ := history_spec earlier' bs'
    obtain rfl := Option.some.inj (hrun.symm.trans hrun₁)
    obtain rfl := Option.some.inj (hrun'.symm.trans hrun₂)
    have hvalue := hfed.value_fingerprint.trans (hlast ▸ hfed'.value_fingerprint.symm)
    exact UInt64.toNat_inj.mp (poly_injective hvalue)

end TCBackup.Client.RollingFingerprint
