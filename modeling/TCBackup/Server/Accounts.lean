import TCBackup.UpdateAttr
import TCBackup.Server.Clients

/-!
# Accounts

`REGISTER` and `LOGIN` look names up in the table `User`. `register_user` takes a name
that was found for a free one, and `get_pass_by_username` reads the password only when the
query failed, so that no account is made and nobody logs in.

The names are taken to fit their arrays. The table maps names to passwords, queries
succeed, and which columns a `SELECT` names is left out.

## Main definitions

- `mysql_query` — the statements on the table
- `register_user`, `user_login`
- `System`, `step` — connections and their requests
- `Exchange.Meets` — a request and its answer agree with the table

## Main results

- `accounts_served` — answers are right exactly for the requests that are to be refused
-/

namespace TCBackup.Server.Accounts

open ByteFile Labelled Clients

/-- `LOGIN` -/
def cmdLogin : Bytes := [76, 79, 71, 73, 78]

/-- `LOGOUT` -/
def cmdLogout : Bytes := [76, 79, 71, 79, 85, 84]

/-- `REGISTER` -/
def cmdRegister : Bytes := [82, 69, 71, 73, 83, 84, 69, 82]

/-- `username=` -/
def usernameField : Bytes := [117, 115, 101, 114, 110, 97, 109, 101, 61]

/-- `password=` -/
def passwordField : Bytes := [112, 97, 115, 115, 119, 111, 114, 100, 61]

/-- `0001 Command is invalid or error` -/
def commandErr : Bytes :=
  [48, 48, 48, 49, 32, 67, 111, 109, 109, 97, 110, 100, 32, 105, 115, 32, 105, 110, 118, 97, 108,
    105, 100, 32, 111, 114, 32, 101, 114, 114, 111, 114]

/-- `0002 Database error` -/
def databaseErr : Bytes :=
  [48, 48, 48, 50, 32, 68, 97, 116, 97, 98, 97, 115, 101, 32, 101, 114, 114, 111, 114]

/-- `1000 login success` -/
def loginOk : Bytes :=
  [49, 48, 48, 48, 32, 108, 111, 103, 105, 110, 32, 115, 117, 99, 99, 101, 115, 115]

/-- `1001 fail login:username has not existed` -/
def loginFail1 : Bytes :=
  [49, 48, 48, 49, 32, 102, 97, 105, 108, 32, 108, 111, 103, 105, 110, 58, 117, 115, 101, 114,
    110, 97, 109, 101, 32, 104, 97, 115, 32, 110, 111, 116, 32, 101, 120, 105, 115, 116, 101, 100]

/-- `1002 fail login:password does not match with the username` -/
def loginFail2 : Bytes :=
  [49, 48, 48, 50, 32, 102, 97, 105, 108, 32, 108, 111, 103, 105, 110, 58, 112, 97, 115, 115, 119,
    111, 114, 100, 32, 100, 111, 101, 115, 32, 110, 111, 116, 32, 109, 97, 116, 99, 104, 32, 119,
    105, 116, 104, 32, 116, 104, 101, 32, 117, 115, 101, 114, 110, 97, 109, 101]

/-- `1003 fail login:username has loged on` -/
def loginFail3 : Bytes :=
  [49, 48, 48, 51, 32, 102, 97, 105, 108, 32, 108, 111, 103, 105, 110, 58, 117, 115, 101, 114,
    110, 97, 109, 101, 32, 104, 97, 115, 32, 108, 111, 103, 101, 100, 32, 111, 110]

/-- `2000 register ok` -/
def registerOk : Bytes :=
  [50, 48, 48, 48, 32, 114, 101, 103, 105, 115, 116, 101, 114, 32, 111, 107]

/-- `2001 register fail:username has existed` -/
def registerFail : Bytes :=
  [50, 48, 48, 49, 32, 114, 101, 103, 105, 115, 116, 101, 114, 32, 102, 97, 105, 108, 58, 117,
    115, 101, 114, 110, 97, 109, 101, 32, 104, 97, 115, 32, 101, 120, 105, 115, 116, 101, 100]

/-- A request of a client. -/
inductive Request
  | register (username password : Bytes)
  | login (username password : Bytes)

def fieldsMsg (username password : Bytes) : Bytes :=
  usernameField ++ (username ++ 32 :: (passwordField ++ password))

/-- `register_cmd` or `login_cmd` with its names. -/
def Request.msg : Request → Bytes
  | .register username password => cmdRegister ++ 32 :: fieldsMsg username password
  | .login username password => cmdLogin ++ 32 :: fieldsMsg username password

/-- `%s` with what is left behind it. -/
def scanField (s : Bytes) : Option (Bytes × Bytes) :=
  (scanWord s).map fun w => (w, (skipSpace s).dropWhile fun c => !isSpace c)

/-- `sscanf(msg, "<cmd> username=%s password=%s", …)`: what it assigns. -/
def scanAccount (cmd msg : Bytes) : Option Bytes × Option Bytes :=
  match (skipLiteral cmd msg).bind fun s =>
      (skipLiteral usernameField (skipSpace s)).bind scanField with
  | none => (none, none)
  | some (username, s) =>
    (some username, (skipLiteral passwordField (skipSpace s)).bind scanWord)

/-- The passwords of the registered names. -/
abbrev Users := Bytes → Option Bytes

inductive Query
  | select (UserName : Bytes)
  | insert (UserName Password : Bytes)

/-- What `mysql_query` returns, the rows that `mysql_store_result` gives and the table. -/
structure Answer where
  status : ℤ
  rows : List (Bytes × Bytes)
  users : Users

/-- `mysql_query`. Names are unique. -/
def mysqlQuery (users : Users) : Query → Answer
  | .select u => ⟨0, ((users u).map fun p => (u, p)).toList, users⟩
  | .insert u p =>
    if (users u).isSome then ⟨1, [], users⟩ else ⟨0, [], Function.update users u (some p)⟩

def findUsername (users : Users) (username : Bytes) : Bool :=
  let q := mysqlQuery users (.select username)
  if q.status ≠ 0 then false
  else if q.rows.length ≠ 1 then false
  else true

def getPassByUsername (users : Users) (username password : Bytes) : Bool :=
  let q := mysqlQuery users (.select username)
  if q.status ≠ 0 then
    match q.rows with
    | [] => false
    | [row] => row.2.take password.length = password ∧ password.length = row.2.length
    | _ => false
  else false

def insertRecordIntoUser (users : Users) (username password : Bytes) : Bool × Users :=
  let q := mysqlQuery users (.select username)
  if q.status ≠ 0 then (false, users)
  else if q.rows.length > 0 then (false, users)
  else
    let i := mysqlQuery users (.insert username password)
    if i.status ≠ 0 then (false, users) else (true, i.users)

/-- `register_user(c, msg)`: the table and what was sent, an empty message included.
`opened` tells that the database was opened. -/
def registerUser (users : Users) (msg : Bytes) (opened : Bool) : Users × Option Bytes :=
  match scanAccount cmdRegister msg with
  | (some username, some password) =>
    if opened = false then (users, none)
    else if findUsername users username = false then (users, some registerFail)
    else
      let inserted := insertRecordIntoUser users username password
      if inserted.1 = false then (inserted.2, some [])
      else (inserted.2, some registerOk)
  | _ => (users, none)

/-- What `sscanf` stores in `c->username` and `c->password`. -/
def storeNames (r : Registry) (c : ℕ) (names : Option Bytes × Option Bytes) : Registry :=
  { r with
    mem := Function.update r.mem c
      { r.mem c with
        username := names.1.getD (r.mem c).username
        password := names.2.getD (r.mem c).password } }

/-- `user_login(c, msg)`: the registry and what was sent. -/
def userLogin (r : Registry) (users : Users) (c : ℕ) (msg : Bytes) (opened : Bool) :
    Registry × Bytes :=
  let r := storeNames r c (scanAccount cmdLogin msg)
  let username := (r.mem c).username
  let password := (r.mem c).password
  match scanAccount cmdLogin msg with
  | (some _, some _) =>
    if (listSearchKey r username).isSome then (r, loginFail3)
    else if opened = false then (r, databaseErr)
    else if findUsername users username = false then (r, loginFail1)
    else if getPassByUsername users username password = false then (r, loginFail2)
    else (listAddNodeTail r c, loginOk)
  | _ => (r, commandErr)

/-- `ClientCmds`; the commands after `REGISTER` are not modelled here. -/
inductive ClientCmd
  | userLogin
  | logout
  | registerUser
  | other
  deriving DecidableEq

def ClientCmds : List (Bytes × ClientCmd) :=
  [(cmdLogin, .userLogin), (cmdLogout, .logout), (cmdRegister, .registerUser)]

/-- The search loop of `handle_client_request`. -/
def clientCmd (msg : Bytes) : ClientCmd :=
  ((ClientCmds.find? fun e => e.1.isPrefixOf msg).map Prod.snd).getD .other

/-- A request with the table and the names logged in before it, its answer and the table
after it. -/
structure Exchange where
  before : Users
  logged : List Bytes
  request : Request
  reply : Option Bytes
  after : Users

/-- `logged` holds the clients that were answered `login_ok` and are still connected,
with their names. -/
structure System where
  registry : Registry
  users : Users
  logged : List (ℕ × Bytes)
  log : List Exchange

inductive Event
  | connect (fd : ℤ) (p : Option ℕ) (opened : Bool)
  | request (c : ℕ) (r : Request) (opened : Bool)
  | leave (c : ℕ)

/-- The clients that have logged in after an answer. -/
def loggedIn (s : System) (c : ℕ) (r : Request) (reply : Option Bytes) : List (ℕ × Bytes) :=
  match r with
  | .register .. => s.logged
  | .login username _ => if reply = some loginOk then (c, username) :: s.logged else s.logged

def System.answer (s : System) (c : ℕ) (r : Request) (registry : Registry) (users : Users)
    (reply : Option Bytes) : System where
  registry := registry
  users := users
  logged := loggedIn s c r reply
  log := s.log ++ [⟨s.users, s.logged.map Prod.snd, r, reply, users⟩]

/-- The command of a request is executed. -/
def serve (s : System) (c : ℕ) (r : Request) (opened : Bool) : System :=
  match clientCmd r.msg with
  | .userLogin =>
    let p := userLogin s.registry s.users c r.msg opened
    s.answer c r p.1 s.users (some p.2)
  | .registerUser =>
    let p := registerUser s.users r.msg opened
    s.answer c r s.registry p.1 p.2
  | _ => s

def step (s : System) : Event → Option System
  | .connect fd p opened =>
    (Clients.step s.registry (.create fd p opened)).map fun r => { s with registry := r }
  | .request c r opened => if c ∈ s.registry.live then some (serve s c r opened) else none
  | .leave c =>
    (Clients.step s.registry (.free c)).map fun r =>
      { s with registry := r, logged := s.logged.filter fun l => l.1 ≠ c }

def init (mem : ℕ → DedupClient) (users : Users) : System where
  registry := Clients.init mem
  users := users
  logged := []
  log := []

/-- `register_ok` exactly for a free name, which is then in the table, and `login_ok`
exactly for the password of a name that is not logged in. -/
def Exchange.Meets (x : Exchange) : Prop :=
  match x.request with
  | .register u p =>
    (x.reply = some registerOk ↔ x.before u = none) ∧
      (x.before u = none → x.after u = some p ∧ ∀ v ≠ u, x.after v = x.before v)
  | .login u p => x.reply = some loginOk ↔ x.before u = some p ∧ u ∉ x.logged

/-- A request that is to be refused: the name to register is taken, or the name to log in
with is free, has another password or is logged in. -/
def Exchange.ToRefuse (x : Exchange) : Prop :=
  match x.request with
  | .register u _ => x.before u ≠ none
  | .login u p => x.before u ≠ some p ∨ u ∈ x.logged

variable {users : Users} {s t : System} {c : ℕ} {u p : Bytes}

theorem findUsername_iff : findUsername users u = true ↔ (users u).isSome = true := by
  cases hu : users u <;> simp [findUsername, mysqlQuery, hu]

/-- A query that succeeds gives no password. -/
theorem getPassByUsername_eq : getPassByUsername users u p = false := rfl

/-- A name that was found is not inserted. -/
theorem insertRecordIntoUser_found (h : findUsername users u = true) :
    insertRecordIntoUser users u p = (false, users) := by
  rw [findUsername_iff, Option.isSome_iff_exists] at h
  obtain ⟨q, hq⟩ := h
  simp [insertRecordIntoUser, mysqlQuery, hq]

theorem registerUser_refuses (users : Users) (msg : Bytes) (opened : Bool) :
    (registerUser users msg opened).1 = users ∧
      (registerUser users msg opened).2 ≠ some registerOk := by
  unfold registerUser
  split
  · next username password hscan =>
    by_cases hopened : opened = false
    · rw [if_pos hopened]
      exact ⟨rfl, show none ≠ some registerOk by decide⟩
    · rw [if_neg hopened]
      by_cases hfound : findUsername users username = false
      · rw [if_pos hfound]
        exact ⟨rfl, show some registerFail ≠ some registerOk by decide⟩
      · rw [if_neg hfound]
        rw [Bool.not_eq_false] at hfound
        rw [insertRecordIntoUser_found hfound, if_pos rfl]
        exact ⟨rfl, show some [] ≠ some registerOk by decide⟩
  · exact ⟨rfl, show none ≠ some registerOk by decide⟩

theorem userLogin_refuses (r : Registry) (users : Users) (c : ℕ) (msg : Bytes) (opened : Bool) :
    (userLogin r users c msg opened).2 ≠ loginOk := by
  unfold userLogin
  generalize storeNames r c (scanAccount cmdLogin msg) = r'
  dsimp only
  split
  · rw [getPassByUsername_eq, if_pos rfl]
    split
    · exact show loginFail3 ≠ loginOk by decide
    · split
      · exact show databaseErr ≠ loginOk by decide
      · split
        · exact show loginFail1 ≠ loginOk by decide
        · exact show loginFail2 ≠ loginOk by decide
  · exact show commandErr ≠ loginOk by decide

theorem clientCmd_register (u p : Bytes) :
    clientCmd (Request.register u p).msg = .registerUser := by
  rfl

theorem clientCmd_login (u p : Bytes) : clientCmd (Request.login u p).msg = .userLogin := by
  rfl

/-- Nothing changes the table, and nobody is told that a request succeeded. -/
def Exchange.Refused (x : Exchange) : Prop :=
  x.after = x.before ∧
    match x.request with
    | .register .. => x.reply ≠ some registerOk
    | .login .. => x.reply ≠ some loginOk

theorem Exchange.Refused.meets_iff {x : Exchange} (h : x.Refused) : x.Meets ↔ x.ToRefuse := by
  obtain ⟨before, logged, request, reply, after⟩ := x
  cases request with
  | register u p =>
    obtain ⟨hsame, hreply⟩ := h
    dsimp only at hsame hreply
    subst hsame
    constructor
    · intro hmeets hfree
      exact hreply (hmeets.1.mpr hfree)
    · intro htaken
      exact ⟨⟨fun hok => absurd hok hreply, fun hfree => absurd hfree htaken⟩,
        fun hfree => absurd hfree htaken⟩
  | login u p =>
    obtain ⟨-, hreply⟩ := h
    dsimp only at hreply
    constructor
    · intro hmeets
      by_cases hpass : before u = some p
      · refine .inr ?_
        by_contra hout
        exact hreply (hmeets.mpr ⟨hpass, hout⟩)
      · exact .inl hpass
    · intro hrefuse
      refine ⟨fun hok => absurd hok hreply, ?_⟩
      rintro ⟨hpass, hout⟩
      cases hrefuse with
      | inl hne => exact absurd hpass hne
      | inr hin => exact absurd hin hout

theorem serve_refused (s : System) (c : ℕ) (r : Request) (opened : Bool) :
    ∃ x : Exchange, (serve s c r opened).log = s.log ++ [x] ∧ x.Refused := by
  cases r with
  | register u p =>
    rw [serve, clientCmd_register]
    obtain ⟨hsame, hreply⟩ := registerUser_refuses s.users (Request.register u p).msg opened
    exact ⟨_, rfl, hsame, hreply⟩
  | login u p =>
    rw [serve, clientCmd_login]
    have hreply := userLogin_refuses s.registry s.users c (Request.login u p).msg opened
    exact ⟨_, rfl, rfl, fun hok => hreply (Option.some.inj hok)⟩

theorem step_refused {e : Event} (h : ∀ x ∈ s.log, x.Refused) (hstep : step s e = some t) :
    ∀ x ∈ t.log, x.Refused := by
  cases e with
  | connect fd p opened =>
    obtain ⟨r, -, rfl⟩ := Option.map_eq_some_iff.mp hstep
    exact h
  | request c r opened =>
    rw [step] at hstep
    split at hstep
    · obtain rfl := Option.some.inj hstep
      obtain ⟨y, hlog, hy⟩ := serve_refused s c r opened
      intro x hx
      rw [hlog, List.mem_append, List.mem_singleton] at hx
      cases hx with
      | inl hold => exact h x hold
      | inr hnew => exact hnew ▸ hy
    · simp at hstep
  | leave c =>
    obtain ⟨r, -, rfl⟩ := Option.map_eq_some_iff.mp hstep
    exact h

/-- In every run, the answers that agree with the table are those to the requests that
are to be refused. -/
theorem accounts_served {mem : ℕ → DedupClient} {es : List Event}
    (h : Run step (fun _ _ => True) (init mem users) es s) :
    ∀ x ∈ s.log, x.Meets ↔ x.ToRefuse := by
  have hrefused : ∀ x ∈ s.log, x.Refused :=
    h.invariant (fun _ _ _ hs _ hstep => step_refused hs hstep) fun _ hx => absurd hx List.not_mem_nil
  intro x hx
  exact (hrefused x hx).meets_iff

/-- A user who is in the table registers again. -/
def registerAgain : List Event :=
  [.connect 5 (some 0) true, .request 0 (.register [97] [112]) true, .leave 0]

theorem accounts_served_again : ∃ s : System, s.log.length = 1 ∧
    ∀ x ∈ s.log, x.Meets ↔ x.ToRefuse := by
  have hrun : Run step (fun _ _ => True) (init (fun _ => newClient 0) fun _ => some [112])
      registerAgain _ := run_of_exec rfl
  exact ⟨_, rfl, accounts_served hrun⟩

/-- The first user registers on an empty table. -/
theorem register_refused :
    ¬ ∀ (mem : ℕ → DedupClient) (users : Users) (es : List Event) (s : System),
      exec step (init mem users) es = some s → ∀ x ∈ s.log, x.Meets := by
  intro h
  have hmeets := h (fun _ => newClient 0) (fun _ => none) registerAgain _ rfl _
    (List.mem_singleton.mpr rfl)
  exact absurd (hmeets.1.mpr rfl) (by decide)

end TCBackup.Server.Accounts
