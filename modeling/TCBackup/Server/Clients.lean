import TCBackup.Global
import TCBackup.Lib.Labelled
import Mathlib.Data.List.Basic
import Mathlib.Data.List.Nodup
import Mathlib.Logic.Function.Basic

/-!
# The list of clients

`create_client` appends its `DedupClient` to `server->clients`; `free_client` looks the
node up by user name. All connections start with the same name, so the node it finds is
the first one of the list.

A client is known by its address, which `malloc` may give again once it is freed. The
memory of a freed client is taken to be intact until then.

## Main definitions

- `Registry` — the list, the counter and the clients in memory
- `create_client`, `free_client`
- `Registered` — the list holds the live clients, each once
- `OldestFirst` — the condition on the calls

## Main results

- `clients_registered` — the list is right as long as clients end in the order they began
-/

namespace TCBackup.Server.Clients

open ByteFile Labelled

/-- What the code reads of a `DedupClient`. The two names are the strings before the NUL
of their arrays. -/
structure DedupClient where
  user_id : ℕ
  username : Bytes
  password : Bytes
  client_fd : ℤ
  deriving DecidableEq

/-- `server`, and the clients in memory. `live` lists the clients that were created and
are not freed, the oldest first. -/
structure Registry where
  clients : List ℕ
  stat_num_connections : ℤ
  mem : ℕ → DedupClient
  live : List ℕ

/-- `yangyf` -/
def defaultName : Bytes := [121, 97, 110, 103, 121, 102]

def newClient (fd : ℤ) : DedupClient where
  user_id := 11
  username := defaultName
  password := []
  client_fd := fd

/-- `client_match` -/
def clientMatch (c : DedupClient) (ClientName : Bytes) : Bool := c.username = ClientName

/-- The index of the first node whose value matches. -/
def listSearchKey (r : Registry) (key : Bytes) : Option ℕ :=
  r.clients.findIdx? fun c => clientMatch (r.mem c) key

def listAddNodeTail (r : Registry) (c : ℕ) : Registry := { r with clients := r.clients ++ [c] }

def listDelNode (r : Registry) (ln : ℕ) : Registry := { r with clients := r.clients.eraseIdx ln }

/-- `create_client(fd)`. `p` is what `malloc` returned, `opened` tells that the database
was opened. -/
def createClient (r : Registry) (fd : ℤ) (p : Option ℕ) (opened : Bool) : Registry × Option ℕ :=
  match p with
  | none => (r, none)
  | some c =>
    let r := { r with mem := Function.update r.mem c (newClient fd) }
    if opened then
      let r := listAddNodeTail r c
      ({ r with
          stat_num_connections := r.stat_num_connections + 1
          live := r.live ++ [c] }, some c)
    else (r, none)

/-- The part of `free_client` after the search. -/
def releaseClient (r : Registry) (c : ℕ) : Registry :=
  { r with
    stat_num_connections := r.stat_num_connections - 1
    live := r.live.erase c }

/-- `free_client(c)` -/
def freeClient (r : Registry) (c : ℕ) : Registry :=
  if (r.mem c).username ≠ [] then
    match listSearchKey r (r.mem c).username with
    | none => r
    | some ln => releaseClient (listDelNode r ln) c
  else releaseClient r c

/-- A call of one of the two functions. -/
inductive Event
  | create (fd : ℤ) (p : Option ℕ) (opened : Bool)
  | free (c : ℕ)

/-- `malloc` returns no address in use, and a connection frees the client it created. -/
def step (r : Registry) : Event → Option Registry
  | .create fd p opened =>
    if ∃ c ∈ p, c ∈ r.live then none else some (createClient r fd p opened).1
  | .free c => if c ∈ r.live then some (freeClient r c) else none

def init (mem : ℕ → DedupClient) : Registry where
  clients := []
  stat_num_connections := 0
  mem := mem
  live := []

/-- One node for each live client, none for any other, and the counter counts them. -/
def Registered (r : Registry) : Prop :=
  (∀ c, r.clients.count c = if c ∈ r.live then 1 else 0) ∧
    r.stat_num_connections = r.clients.length

/-- The client that is freed is the oldest one. -/
def OldestFirst (r : Registry) : Event → Prop
  | .create .. => True
  | .free c => r.live.head? = some c

instance (r : Registry) (e : Event) : Decidable (OldestFirst r e) :=
  match e with
  | .create .. => inferInstanceAs (Decidable True)
  | .free c => inferInstanceAs (Decidable (r.live.head? = some c))

/-- Every node and every live client carries the name it was created with. -/
structure Named (r : Registry) : Prop where
  node : ∀ c ∈ r.clients, (r.mem c).username = defaultName
  live : ∀ c ∈ r.live, (r.mem c).username = defaultName

variable {r r' : Registry} {fd : ℤ} {p : Option ℕ} {opened : Bool} {c : ℕ}

theorem newClient_username (fd : ℤ) : (newClient fd).username = defaultName := rfl

theorem update_username {mem : ℕ → DedupClient} {d : ℕ}
    (h : (mem d).username = defaultName) :
    (Function.update mem c (newClient fd) d).username = defaultName := by
  by_cases hd : d = c
  · rw [hd, Function.update_self]
    exact newClient_username fd
  · rw [Function.update_of_ne hd]
    exact h

/-- Where all names agree, the search stops at the first node. -/
theorem listSearchKey_default (h : ∀ c ∈ r.clients, (r.mem c).username = defaultName) :
    listSearchKey r defaultName = if r.clients = [] then none else some 0 := by
  rw [listSearchKey]
  cases hc : r.clients with
  | nil => simp
  | cons d ds =>
    have hd := h d (by simp [hc])
    simp [List.findIdx?_cons, clientMatch, hd]

/-- `free_client` removes the first node, whoever it belongs to. -/
theorem freeClient_eq (h : Named r) (hc : c ∈ r.live) :
    freeClient r c = if r.clients = [] then r else releaseClient (listDelNode r 0) c := by
  have hname := h.live c hc
  rw [freeClient, hname, if_pos (by decide), listSearchKey_default h.node]
  by_cases hnil : r.clients = []
  · rw [if_pos hnil, if_pos hnil]
  · rw [if_neg hnil, if_neg hnil]

theorem createClient_named (h : Named r) : Named (createClient r fd p opened).1 := by
  cases p with
  | none => exact h
  | some c =>
    rw [createClient]
    split
    · refine ⟨fun d hd => ?_, fun d hd => ?_⟩
      · obtain hd | hd := List.mem_append.mp hd
        · exact update_username (h.node d hd)
        · obtain rfl := List.mem_singleton.mp hd
          exact congrArg _ (Function.update_self d _ r.mem)
      · obtain hd | hd := List.mem_append.mp hd
        · exact update_username (h.live d hd)
        · obtain rfl := List.mem_singleton.mp hd
          exact congrArg _ (Function.update_self d _ r.mem)
    · exact ⟨fun d hd => update_username (h.node d hd), fun d hd => update_username (h.live d hd)⟩

theorem freeClient_named (h : Named r) (hc : c ∈ r.live) : Named (freeClient r c) := by
  rw [freeClient_eq h hc]
  split
  · exact h
  · exact ⟨fun d hd => h.node d (List.mem_of_mem_eraseIdx hd),
      fun d hd => h.live d (List.mem_of_mem_erase hd)⟩

/-- The list is the list of the live clients. -/
structure InOrder (r : Registry) : Prop where
  named : Named r
  clients : r.clients = r.live
  nodup : r.live.Nodup
  stat : r.stat_num_connections = r.clients.length

theorem InOrder.registered (h : InOrder r) : Registered r := by
  refine ⟨fun c => ?_, h.stat⟩
  rw [h.clients]
  split
  · next hc => exact List.count_eq_one_of_mem h.nodup hc
  · next hc => exact List.count_eq_zero.mpr hc

theorem init_inOrder (mem : ℕ → DedupClient) : InOrder (init mem) :=
  ⟨⟨fun _ h => absurd h List.not_mem_nil, fun _ h => absurd h List.not_mem_nil⟩, rfl,
    List.nodup_nil, rfl⟩

/-- A client is appended, or nothing but the memory changes. -/
theorem createClient_cases (r : Registry) (fd : ℤ) (p : Option ℕ) (opened : Bool) :
    (∃ c, p = some c ∧ (createClient r fd p opened).1.clients = r.clients ++ [c] ∧
      (createClient r fd p opened).1.live = r.live ++ [c] ∧
      (createClient r fd p opened).1.stat_num_connections = r.stat_num_connections + 1) ∨
    ((createClient r fd p opened).1.clients = r.clients ∧
      (createClient r fd p opened).1.live = r.live ∧
      (createClient r fd p opened).1.stat_num_connections = r.stat_num_connections) := by
  cases p with
  | none => exact .inr ⟨rfl, rfl, rfl⟩
  | some c =>
    rw [createClient]
    split
    · exact .inl ⟨c, rfl, rfl, rfl, rfl⟩
    · exact .inr ⟨rfl, rfl, rfl⟩

theorem createClient_inOrder (h : InOrder r) (hfresh : ∀ c ∈ p, c ∉ r.live) :
    InOrder (createClient r fd p opened).1 := by
  have hnamed : Named (createClient r fd p opened).1 := createClient_named h.named
  have hstat := h.stat
  obtain ⟨c, hc, hclients, hlive, hnum⟩ | ⟨hclients, hlive, hnum⟩ :=
    createClient_cases r fd p opened
  · have hnew : c ∉ r.live := hfresh c hc
    refine ⟨hnamed, by rw [hclients, hlive, h.clients], ?_, ?_⟩
    · rw [hlive, ← List.concat_eq_append]
      exact h.nodup.concat hnew
    · rw [hnum, hclients, List.length_append, List.length_singleton]
      omega
  · refine ⟨hnamed, by rw [hclients, hlive, h.clients], ?_, ?_⟩
    · rw [hlive]
      exact h.nodup
    · rw [hnum, hclients]
      exact hstat

/-- The oldest client takes its own node with it. -/
theorem freeClient_inOrder (h : InOrder r) (hc : r.live.head? = some c) :
    InOrder (freeClient r c) := by
  obtain ⟨cs, hlive⟩ := List.head?_eq_some_iff.mp hc
  have hmem : c ∈ r.live := by simp [hlive]
  have hclients : r.clients = c :: cs := h.clients.trans hlive
  have hnamed := freeClient_named h.named hmem
  have hstat := h.stat
  have hnodup := h.nodup
  rw [hclients, List.length_cons] at hstat
  rw [hlive, List.nodup_cons] at hnodup
  rw [freeClient_eq h.named hmem, if_neg (by simp [hclients])] at hnamed ⊢
  have hnodes : (releaseClient (listDelNode r 0) c).clients = cs := by
    rw [releaseClient, listDelNode, hclients]
    rfl
  have hleft : (releaseClient (listDelNode r 0) c).live = cs := by
    rw [releaseClient, listDelNode, hlive]
    exact List.erase_cons_head ..
  refine ⟨hnamed, hnodes.trans hleft.symm, ?_, ?_⟩
  · rw [hleft]
    exact hnodup.2
  · rw [hnodes]
    change r.stat_num_connections - 1 = _
    omega

theorem step_inOrder {e : Event} (h : InOrder r) (hcond : OldestFirst r e)
    (hstep : step r e = some r') : InOrder r' := by
  cases e with
  | create fd p opened =>
    rw [step] at hstep
    split at hstep
    · simp at hstep
    · next hfresh =>
      obtain rfl := Option.some.inj hstep
      exact createClient_inOrder h fun c hc hlive => hfresh ⟨c, hc, hlive⟩
  | free c =>
    rw [step] at hstep
    split at hstep
    · obtain rfl := Option.some.inj hstep
      exact freeClient_inOrder h hcond
    · simp at hstep

/-- A younger client takes the node of the oldest one. -/
theorem registered_iff_oldest (h : InOrder r) (hc : c ∈ r.live) :
    Registered (freeClient r c) ↔ r.live.head? = some c := by
  refine ⟨fun hreg => ?_, fun hhead => (freeClient_inOrder h hhead).registered⟩
  cases hlive : r.live with
  | nil => simp [hlive] at hc
  | cons d ds =>
    by_cases hdc : d = c
    · rw [List.head?_cons, hdc]
    · have hclients : r.clients = d :: ds := h.clients.trans hlive
      have hnodup := h.nodup
      rw [hlive, List.nodup_cons] at hnodup
      have hcount := hreg.1 d
      rw [freeClient_eq h.named hc, if_neg (by simp [hclients])] at hcount
      have hnodes : (releaseClient (listDelNode r 0) c).clients = ds := by
        rw [releaseClient, listDelNode, hclients]
        rfl
      have hleft : d ∈ (releaseClient (listDelNode r 0) c).live := by
        change d ∈ r.live.erase c
        rw [List.mem_erase_of_ne hdc, hlive]
        exact List.mem_cons_self
      rw [hnodes, if_pos hleft, List.count_eq_zero.mpr hnodup.1] at hcount
      exact absurd hcount (by decide)

/-- As long as clients end in the order they began, the list holds the live clients. -/
theorem clients_registered {mem : ℕ → DedupClient} {es : List Event}
    (h : Run step OldestFirst (init mem) es r) : Registered r :=
  (h.invariant (fun _ _ _ hr hcond hstep => step_inOrder hr hcond hstep)
    (init_inOrder mem)).registered

/-- Two clients, of which the first ends. -/
def firstEnds : List Event := [.create 4 (some 0) true, .create 5 (some 1) true, .free 0]

theorem clients_registered_two : ∃ r, r.clients = [1] ∧ Registered r := by
  have hrun : Run step OldestFirst (init fun _ => newClient 0) firstEnds _ := run_of_execIf rfl
  exact ⟨_, rfl, clients_registered hrun⟩

/-- The second of two clients ends first: the node that is left is its own. -/
theorem younger_client_first :
    ¬ ∀ (mem : ℕ → DedupClient) (es : List Event) (r : Registry),
      exec step (init mem) es = some r → Registered r := by
  intro h
  have hreg := h (fun _ => newClient 0)
    [.create 4 (some 0) true, .create 5 (some 1) true, .free 1] _ rfl
  exact absurd (hreg.1 0) (by decide)

end TCBackup.Server.Clients
