import TCBackup.Bnet
import TCBackup.Lib.Transfer

/-!
# Framing over a byte stream (`lib/bnet.c`)

`bnet_send` writes a 32-bit length in network order and the message, `bnet_signal`
only a value in its place, and `bnet_recv` reads them back. `read` and `write` may be
interrupted and may move fewer bytes than asked for.

## Main definitions

- `readn`, `writen` — the loops around the system calls
- `bnetSend`, `bnetSignal`, `bnetRecv` — one message or signal
- `Item` — what one side of a connection sends
-/

namespace TCBackup.Framing

open ByteFile Transfer

/-- The bytes of `htonl(x)` in memory, where integers are little-endian. -/
def htonl (x : ℤ) : Bytes := (intBytes 4 x).reverse

/-- `ntohl` of four bytes in memory. -/
def ntohl (bs : Bytes) : ℤ := intOf bs.reverse

/-- `readn(fd, vptr, n)`: the bytes stored at `vptr`, or `none` for `ERROR`. -/
def readn (k : Kernel) (i : ℕ) (stream : Bytes) (n : ℕ) : Option Bytes × ℕ × Bytes :=
  pull k i stream n

/-- `writen(fd, vptr, n)`: the value returned, and the bytes that reached the stream. -/
def writen (k : Kernel) (i : ℕ) (data : Bytes) : ℤ × ℕ × Bytes :=
  let (ok, next, sent) := push k i data
  (if ok then data.length else bnetError, next, sent)

/-- `bnet_send(fd, msg, len)` -/
def bnetSend (k : Kernel) (i : ℕ) (msg : Bytes) : ℤ × ℕ × Bytes :=
  let (n, i, header) := writen k i (htonl msg.length)
  if n ≠ 4 then (bnetError, i, header)
  else
    let (wn, i, body) := writen k i msg
    (wn, i, header ++ body)

/-- `bnet_signal(fd, sig)` -/
def bnetSignal (k : Kernel) (i : ℕ) (sig : ℤ) : ℤ × ℕ × Bytes :=
  let (n, i, header) := writen k i (htonl sig)
  (if n ≠ 4 then bnetError else 0, i, header)

/-- `bnet_recv(fd, msg, &len)` -/
def bnetRecv (k : Kernel) (i : ℕ) (stream : Bytes) : Delivery × ℕ × Bytes :=
  match readn k i stream 4 with
  | (none, i, stream) => (.error, i, stream)
  | (some header, i, stream) =>
    if header.length ≠ 4 then (.error, i, stream)
    else
      let size := ntohl header
      if size ≤ 0 then (.signal size, i, stream)
      else
        match readn k i stream size.toNat with
        | (none, i, stream) => (.error, i, stream)
        | (some bytes, i, stream) => (.message size.toNat bytes, i, stream)

/-- `*len` after `bnet_recv`; an error leaves it as it was. -/
def len (old : ℤ) : Delivery → ℤ
  | .error => old
  | .signal sig => sig
  | .message announced _ => announced

/-- What one side sends: the payloads and signals that can be told apart from a
closed connection. -/
inductive Item
  | send (msg : Bytes) (pos : 0 < msg.length) (bound : msg.length < 2 ^ 31)
  | signal (sig : ℤ) (neg : sig < 0) (bound : -2 ^ 31 ≤ sig) (err : sig ≠ bnetError)

/-- The calls of the sender: the values they return, and the bytes of the stream. -/
def sendAll (k : Kernel) : ℕ → List Item → List ℤ × Bytes
  | _, [] => ([], [])
  | i, item :: items =>
    let (ret, i, bytes) := match item with
      | .send msg _ _ => bnetSend k i msg
      | .signal sig _ _ _ => bnetSignal k i sig
    let (rets, stream) := sendAll k i items
    (ret :: rets, bytes ++ stream)

/-- `n` calls of `bnet_recv`. -/
def recvAll (k : Kernel) : ℕ → Bytes → ℕ → List Delivery
  | _, _, 0 => []
  | i, stream, n + 1 =>
    let (d, i, stream) := bnetRecv k i stream
    d :: recvAll k i stream n

/-- What `bnet_send` or `bnet_signal` returns when it succeeds. -/
def Item.sent : Item → ℤ
  | .send msg _ _ => msg.length
  | .signal _ _ _ _ => 0

/-- What `bnet_recv` meets. -/
def Item.delivery : Item → Delivery
  | .send msg _ _ => .whole msg
  | .signal sig _ _ _ => .signal sig

/-- The caller of `bnet_recv` finds the payload in its buffer and its length in `*len`,
or the value of the signal there, and does not take it for an error. -/
def Item.Seen (item : Item) (d : Delivery) : Prop :=
  d.ret ≠ bnetError ∧
    match item with
    | .send msg _ _ => d.ret = msg.length ∧ (∀ old, len old d = msg.length) ∧
        ∀ buf, readAt (d.into buf) 0 msg.length = msg
    | .signal sig _ _ _ => d.ret = sig ∧ (∀ old, len old d = sig) ∧ ∀ buf, d.into buf = buf

/-- The bytes of an item in the stream. -/
def Item.bytes : Item → Bytes
  | .send msg _ _ => htonl msg.length ++ msg
  | .signal sig _ _ _ => htonl sig

@[simp] theorem length_htonl (x : ℤ) : (htonl x).length = 4 := by
  rw [htonl, List.length_reverse, length_intBytes]

theorem ntohl_htonl {x : ℤ} (hlow : -2 ^ 31 ≤ x) (hhigh : x < 2 ^ 31) : ntohl (htonl x) = x := by
  rw [ntohl, htonl, List.reverse_reverse, intOf_intBytes]
  rw [Int.bmod_eq_of_le] <;> norm_num at * <;> omega

variable {k : Kernel}

theorem writen_reliable (hk : k.Reliable) (i : ℕ) (data : Bytes) :
    ∃ next, writen k i data = ((data.length : ℤ), next, data) := by
  obtain ⟨next, heq⟩ := push_reliable hk i data
  exact ⟨next, by rw [writen, heq]; rfl⟩

theorem bnetSend_reliable (hk : k.Reliable) (i : ℕ) (msg : Bytes) :
    ∃ next, bnetSend k i msg = ((msg.length : ℤ), next, htonl msg.length ++ msg) := by
  obtain ⟨i', hheader⟩ := writen_reliable hk i (htonl msg.length)
  obtain ⟨next, hbody⟩ := writen_reliable hk i' msg
  exact ⟨next, by simp [bnetSend, hheader, hbody]⟩

theorem bnetSignal_reliable (hk : k.Reliable) (i : ℕ) (sig : ℤ) :
    ∃ next, bnetSignal k i sig = (0, next, htonl sig) := by
  obtain ⟨next, hheader⟩ := writen_reliable hk i (htonl sig)
  exact ⟨next, by simp [bnetSignal, hheader]⟩

theorem readn_prefix (hk : k.Reliable) (i : ℕ) {bytes : Bytes} {n : ℕ} (hn : bytes.length = n)
    (rest : Bytes) : ∃ next, readn k i (bytes ++ rest) n = (some bytes, next, rest) := by
  obtain ⟨next, heq⟩ := pull_reliable hk i (bytes ++ rest) n
  refine ⟨next, ?_⟩
  rw [readn, heq, List.take_left' hn, List.drop_left' hn]

theorem bnetRecv_send (hk : k.Reliable) (i : ℕ) {msg : Bytes} (hpos : 0 < msg.length)
    (hbound : msg.length < 2 ^ 31) (rest : Bytes) :
    ∃ next, bnetRecv k i (htonl msg.length ++ msg ++ rest) = (.whole msg, next, rest) := by
  rw [List.append_assoc]
  obtain ⟨i', hheader⟩ := readn_prefix hk i (length_htonl msg.length) (msg ++ rest)
  obtain ⟨next, hbody⟩ := readn_prefix hk i' rfl rest
  have hsize : ntohl (htonl msg.length) = msg.length := ntohl_htonl (by omega) (by omega)
  refine ⟨next, ?_⟩
  rw [bnetRecv, hheader]
  dsimp only
  rw [if_neg (by simp), hsize, if_neg (by omega), Int.toNat_natCast, hbody]
  rfl

theorem bnetRecv_signal (hk : k.Reliable) (i : ℕ) {sig : ℤ} (hneg : sig < 0)
    (hbound : -2 ^ 31 ≤ sig) (rest : Bytes) :
    ∃ next, bnetRecv k i (htonl sig ++ rest) = (.signal sig, next, rest) := by
  obtain ⟨next, hheader⟩ := readn_prefix hk i (length_htonl sig) rest
  refine ⟨next, ?_⟩
  rw [bnetRecv, hheader]
  dsimp only
  rw [if_neg (by simp), ntohl_htonl hbound (by omega), if_pos hneg.le]

/-- At the end of the stream. -/
theorem bnetRecv_nil (hk : k.Reliable) (i : ℕ) :
    ∃ next, bnetRecv k i [] = (.error, next, []) := by
  obtain ⟨next, heq⟩ := pull_reliable hk i ([] : Bytes) 4
  exact ⟨next, by simp [bnetRecv, readn, heq]⟩

theorem bnetRecv_item (hk : k.Reliable) (i : ℕ) (item : Item) (rest : Bytes) :
    ∃ next, bnetRecv k i (item.bytes ++ rest) = (item.delivery, next, rest) := by
  cases item with
  | send msg hpos hbound => exact bnetRecv_send hk i hpos hbound rest
  | signal sig hneg hbound herr => exact bnetRecv_signal hk i hneg hbound rest

theorem sendAll_reliable (hk : k.Reliable) (i : ℕ) (items : List Item) :
    sendAll k i items = (items.map Item.sent, items.flatMap Item.bytes) := by
  induction items generalizing i with
  | nil => rfl
  | cons item items ih =>
    cases item with
    | send msg hpos hbound =>
      obtain ⟨next, heq⟩ := bnetSend_reliable hk i msg
      simp only [sendAll, heq, ih, List.map_cons, List.flatMap_cons, Item.sent, Item.bytes]
    | signal sig hneg hbound herr =>
      obtain ⟨next, heq⟩ := bnetSignal_reliable hk i sig
      simp only [sendAll, heq, ih, List.map_cons, List.flatMap_cons, Item.sent, Item.bytes]

theorem recvAll_reliable (hk : k.Reliable) (i : ℕ) (items : List Item) :
    recvAll k i (items.flatMap Item.bytes) (items.length + 1) =
      items.map Item.delivery ++ [.error] := by
  induction items generalizing i with
  | nil =>
    obtain ⟨next, heq⟩ := bnetRecv_nil hk i
    simp [recvAll, heq]
  | cons item items ih =>
    obtain ⟨next, heq⟩ := bnetRecv_item hk i item (items.flatMap Item.bytes)
    rw [List.length_cons, recvAll, List.flatMap_cons, heq]
    dsimp only
    rw [ih, List.map_cons, List.cons_append]

theorem Item.seen_delivery (item : Item) : item.Seen item.delivery := by
  cases item with
  | send msg hpos hbound =>
    refine ⟨?_, rfl, fun _ => rfl, fun buf => ?_⟩
    · simp only [Item.delivery, Delivery.whole, Delivery.ret, bnetError]
      omega
    · simp only [Item.delivery, Delivery.whole, Delivery.into]
      have hinside : 0 + msg.length ≤ (msg ++ [0]).length := by simp
      have hread : readAt (writeAt buf 0 (msg ++ [0])) 0 msg.length =
          readAt (msg ++ [0]) 0 msg.length := readAt_writeAt_inside hinside
      rw [hread]
      exact readAt_front rfl
  | signal sig hneg hbound herr => exact ⟨herr, rfl, fun _ => rfl, fun _ => rfl⟩

/-- Every payload and every signal is received as it was sent, whatever the calls of
either side move at a time, and then the end of the stream is an error. -/
theorem framing_round_trip {w r : Kernel} (hw : w.Reliable) (hr : r.Reliable)
    (items : List Item) :
    (sendAll w 0 items).1 = items.map Item.sent ∧
      ∃ ds, recvAll r 0 (sendAll w 0 items).2 (items.length + 1) = ds ++ [.error] ∧
        List.Forall₂ Item.Seen items ds := by
  rw [sendAll_reliable hw]
  refine ⟨rfl, items.map Item.delivery, recvAll_reliable hr 0 items, ?_⟩
  rw [List.forall₂_map_right_iff]
  exact List.forall₂_same.mpr fun item _ => item.seen_delivery

/-- Every third call is interrupted, and the others move one byte and four bytes. -/
def choppy : Kernel where
  call i := if i % 3 = 0 then .interrupted else if i % 3 = 1 then .moved 0 else .moved 3
  progress i := by
    refine ⟨3 * i + 1, by omega, ?_⟩
    have hmod : (3 * i + 1) % 3 = 1 := by omega
    simp [hmod]

theorem choppy_reliable : choppy.Reliable := by
  intro i
  rw [choppy]
  dsimp only
  split
  · simp
  · split <;> simp

/-- A message with a NUL in it, and the end of a backup. -/
def greeting : List Item :=
  [.send [104, 105, 0] (by decide) (by decide), .signal streamEnd (by decide) (by decide) (by decide)]

theorem framing_round_trip_choppy :
    (sendAll choppy 0 greeting).1 = greeting.map Item.sent ∧
      ∃ ds, recvAll choppy 0 (sendAll choppy 0 greeting).2 (greeting.length + 1) = ds ++ [.error] ∧
        List.Forall₂ Item.Seen greeting ds :=
  framing_round_trip choppy_reliable choppy_reliable greeting

end TCBackup.Framing
