import TCBackup.Global

/-!
# Framed messages (`lib/bnet.c`)

A message is a length and that many bytes. A length that is not positive is a
signal and carries no bytes.
-/

namespace TCBackup

open ByteFile

/-- What one `bnet_recv` meets: no complete length field, a signal, or a message
of which `bytes` arrived before the connection ended. -/
inductive Delivery
  | error
  | signal (len : ℤ)
  | message (announced : ℕ) (bytes : Bytes)
  deriving DecidableEq

/-- `ERROR` -/
def bnetError : ℤ := -100

/-- `STREAM_END` -/
def streamEnd : ℤ := -6

/-- The return value of `bnet_recv`. -/
def Delivery.ret : Delivery → ℤ
  | .error => bnetError
  | .signal len => len
  | .message _ bytes => bytes.length

/-- The buffer after `bnet_recv`: the bytes that arrived and a NUL overwrite its
front. Memory that was never written counts as zero. -/
def Delivery.into (buf : Bytes) : Delivery → Bytes
  | .message _ bytes => writeAt buf 0 (bytes ++ [0])
  | _ => buf

/-- A message that arrived in full. -/
def Delivery.whole (bytes : Bytes) : Delivery := .message bytes.length bytes

/-- The bytes that arrived. -/
def Delivery.bytes : Delivery → Bytes
  | .message _ bytes => bytes
  | _ => []

/-- How many bytes `bnet_recv` stores: the message and a NUL. -/
def Delivery.stored : Delivery → ℕ
  | .message _ bytes => bytes.length + 1
  | _ => 0

/-- What arrives on a connection, and whether the other side closes it after that. -/
structure Incoming where
  arriving : List Delivery
  closed : Bool

/-- A value in an `int` or `int32_t`, wrapped around where it does not fit. -/
def int32 (x : ℤ) : ℤ := x.bmod (2 ^ 32)

/-- What arrives of `bnet_send(fd, msg, len)` without failures, where `len` is an `int`. -/
def bnetSent (msg : Bytes) : Delivery :=
  if int32 msg.length ≤ 0 then .signal (int32 msg.length)
  else .whole (msg.take (int32 msg.length).toNat)

/-- The string at the front of a buffer. -/
def cstring (buf : Bytes) : Bytes := buf.takeWhile (· ≠ 0)

theorem int32_eq {x : ℤ} (hlow : -2 ^ 31 ≤ x) (hhigh : x < 2 ^ 31) : int32 x = x := by
  rw [int32, Int.bmod_eq_of_le] <;> norm_num at * <;> omega

theorem int32_lt (x : ℤ) : int32 x < 2 ^ 31 := by
  have h := Int.bmod_lt (x := x) (m := 2 ^ 32) (by decide)
  norm_num at h
  rw [int32]
  norm_num
  omega

theorem int32_emod (x : ℤ) : int32 x % 2 ^ 32 = x % 2 ^ 32 := by
  have h : (x.bmod (2 ^ 32)) % ((2 ^ 32 : ℕ) : ℤ) = x % ((2 ^ 32 : ℕ) : ℤ) := Int.bmod_emod
  exact h

/-- A message that is not empty and shorter than 2 GB arrives as it is. -/
theorem bnetSent_eq {msg : Bytes} (hpos : 0 < msg.length) (hlen : msg.length < 2 ^ 31) :
    bnetSent msg = .whole msg := by
  have hint : int32 (msg.length : ℤ) = msg.length := int32_eq (by omega) (by omega)
  rw [bnetSent, hint, if_neg (by omega), Int.toNat_natCast, List.take_length]

end TCBackup
