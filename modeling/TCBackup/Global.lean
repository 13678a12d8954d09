import TCBackup.Lib.ByteFile

/-!
# Types and constants shared by client and server

The field widths of `client.h` and `server.h`. Both programs store
fingerprints and container names as fixed arrays.
-/

namespace TCBackup

open ByteFile

/-- `FINGER_LENGTH` bytes of SHA-1. -/
abbrev Fingerprint := List.Vector UInt8 20

/-- `CHUNK_ADDRESS_LENGTH` bytes: a container name, filled up with NUL. -/
abbrev Chunkaddress := List.Vector UInt8 64

/-- `is_new` of a file: fresh, `NEW_FILE` or `DEDUP_FILE`. -/
inductive FileStatus
  | unset
  | newFile
  | dedupFile
  deriving DecidableEq, Repr

/-- `num * (FINGER_LENGTH + FILE_NAME_LEN + sizeof(int32_t))`, the size of a list of files on
both sides. There is no room for a negative number of them. -/
def listSize (num : ℤ) : ℕ := (280 * num).toNat

/-- `magic_key` as the bytes that `write(fd, &magic_key, 4)` stores. -/
def magicKey : Bytes := leBytes 4 0xa1b2c3d4

@[simp] theorem length_magicKey : magicKey.length = 4 := length_leBytes _ _

/-- A `uint32_t`. -/
def word (x : ℕ) : ℕ := x % 2 ^ 32

theorem word_of_lt {x : ℕ} (h : x < 2 ^ 32) : word x = x := Nat.mod_eq_of_lt h

end TCBackup
