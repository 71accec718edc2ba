import Mathlib.Logic.Function.Basic

/- Connecting a socket, in the build with `getaddrinfo`. The calls into the system come with their
   outcomes, address by address and round by round of waiting. The loop closes every socket that it
   does not return; one that connects at once while a timeout is given stays non-blocking. -/
namespace IcecastCommon.Net

/-! Sockets. -/

/-- `SOCK_ERROR`, which no socket is equal to. -/
def sockError : Int := -1

/-- `SOCK_TIMEOUT`. -/
def sockTimeout : Int := -2

/-- The sockets of a run: how many have been created, what `sock_close` has been called with and
    how the blocking modes were set, latest first. -/
structure Sockets where
  opened : Nat
  closed : List Int
  modes : List (Int × Bool)
deriving DecidableEq, Repr

namespace Sockets

/-- No socket yet. -/
def none : Sockets := ⟨0, [], []⟩

/-- The socket that the next `socket` call gives. -/
def fresh (net : Sockets) : Int := net.opened

/-- A successful `socket` call. -/
def socket (net : Sockets) : Sockets :=
  { net with opened := net.opened + 1 }

/-- `sock_close`. -/
def close (net : Sockets) (sock : Int) : Sockets :=
  { net with closed := sock :: net.closed }

/-- `sock_set_blocking` on an open socket. -/
def setBlocking (net : Sockets) (sock : Int) (block : Bool) : Sockets :=
  { net with modes := (sock, block) :: net.modes }

/-- The mode of a socket. A new one is blocking. -/
def blocking (net : Sockets) (sock : Int) : Bool :=
  (net.modes.lookup sock).getD true

variable (net : Sockets) (sock : Int) (block : Bool)

@[simp] theorem opened_socket : net.socket.opened = net.opened + 1 := rfl
@[simp] theorem closed_socket : net.socket.closed = net.closed := rfl
@[simp] theorem modes_socket : net.socket.modes = net.modes := rfl
@[simp] theorem opened_close : (net.close sock).opened = net.opened := rfl
@[simp] theorem closed_close : (net.close sock).closed = sock :: net.closed := rfl
@[simp] theorem modes_close : (net.close sock).modes = net.modes := rfl
@[simp] theorem opened_setBlocking : (net.setBlocking sock block).opened = net.opened := rfl
@[simp] theorem closed_setBlocking : (net.setBlocking sock block).closed = net.closed := rfl
@[simp] theorem modes_setBlocking : (net.setBlocking sock block).modes = (sock, block) :: net.modes := rfl

@[simp] theorem blocking_setBlocking : (net.setBlocking sock block).blocking sock = block := by
  simp [blocking]

end Sockets

/-- The values of `errno` that the code tells apart. -/
inductive Errno
  | none
  | eagain
  | ewouldblock
  | eintr
  | einprogress
  | erestart
  | ealready
  | other (n : Nat)
deriving DecidableEq, Repr

def sockRecoverable : Errno → Bool
  | .none | .eagain | .eintr | .einprogress | .ewouldblock | .erestart => true
  | _ => false

/-- What comes of `poll` or `select`, and of the `getsockopt` behind it. -/
inductive Ready
  /-- It returns 0. -/
  | timeout
  /-- It returns -1. -/
  | failed (errno : Errno)
  /-- The socket is ready and `SO_ERROR` is this. -/
  | ready (val : Errno)
  /-- The socket is ready but `getsockopt` fails. -/
  | unknown (errno : Errno)
deriving DecidableEq, Repr

/-- `sock_connected` with the `errno` that it leaves. -/
def sockConnected (r : Ready) (errno : Errno) : Int × Errno :=
  let failure (e : Errno) : Int × Errno := (if sockRecoverable e then 0 else sockError, e)
  match r with
  | .timeout => (sockTimeout, errno)
  | .ready val => if val = .none then (1, errno) else failure val
  | .unknown e => failure e
  | .failed e => failure e

/-! `sock_connect_wto_bind`. -/

/-- The outcomes for one address: whether `socket`, the lookup of the bind address and `bind`
    succeed, what `errno` a failed `connect` leaves, and the rounds of waiting. -/
structure Attempt where
  socket : Bool
  bindLookup : Bool
  bind : Bool
  connect : Option Errno
  rounds : List Ready
deriving DecidableEq, Repr

/-- `while (sock != SOCK_ERROR)`, the loop for a `connect` that may go on. It has not returned when
    the rounds are used up. -/
def waitLoop (timeout : Int) (sock : Int) : List Ready → Errno → Sockets → Option (Int × Sockets)
  | rounds, errno, net =>
    if sockRecoverable errno then
      match rounds with
      | [] => .none
      | r :: rounds =>
        let (connected, errno) := sockConnected r errno
        if connected = 0 then waitLoop timeout sock rounds errno net
        else if connected = 1 then some (sock, if timeout ≥ 0 then net.setBlocking sock true else net)
        else some (sockError, net.close sock)
    else some (sockError, net.close sock)

/-- The body of the loop over the addresses: whether it breaks, `sock` and the sockets. -/
def connectAddr (timeout : Int) (bnd : Bool) (a : Attempt) (net : Sockets) : Option (Bool × Int × Sockets) :=
  if a.socket then
    let sock := net.fresh
    let net := net.socket
    let net := if timeout > 0 then net.setBlocking sock false else net
    if bnd ∧ ¬(a.bindLookup ∧ a.bind) then some (true, sockError, net.close sock)
    else match a.connect with
      | .none => some (true, sock, net)
      | some errno => do
        let (sock, net) ← waitLoop timeout sock a.rounds errno net
        some (decide (sock ≠ sockError), sock, net)
  else some (false, sockError, net)

/-- `while (ai)`. -/
def connectLoop (timeout : Int) (bnd : Bool) : List Attempt → Int → Sockets → Option (Int × Sockets)
  | [], sock, net => some (sock, net)
  | a :: ai, _, net => do
    let (broken, sock, net) ← connectAddr timeout bnd a net
    if broken then some (sock, net) else connectLoop timeout bnd ai sock net

/-- `sock_connect_wto_bind`, where `head` is the list that `getaddrinfo` gives, if it succeeds, and
    `bnd` says whether a bind address is given. -/
def sockConnectWtoBind (head : Option (List Attempt)) (bnd : Bool) (timeout : Int) (net : Sockets) :
    Option (Int × Sockets) :=
  match head with
  | .none => some (sockError, net)
  | some ai => connectLoop timeout bnd ai sockError net

/-! What comes of waiting. -/

/-- Whether the wait ends with a connection. -/
def waits : List Ready → Errno → Option Bool
  | rounds, errno =>
    if sockRecoverable errno then
      match rounds with
      | [] => .none
      | r :: rounds =>
        if (sockConnected r errno).1 = 0 then waits rounds (sockConnected r errno).2
        else some (decide ((sockConnected r errno).1 = 1))
    else some false

theorem waitLoop_eq (timeout sock : Int) (rounds : List Ready) (errno : Errno) (net : Sockets) :
    waitLoop timeout sock rounds errno net = (waits rounds errno).map fun ok =>
      if ok then (sock, if timeout ≥ 0 then net.setBlocking sock true else net)
      else (sockError, net.close sock) := by
  induction rounds generalizing errno with
  | nil =>
    rw [waitLoop, waits]
    split <;> rfl
  | cons r rounds ih =>
    rw [waitLoop, waits]
    split
    · dsimp only
      split
      · exact ih _
      · split
        · next h => simp [h]
        · next h => simp [h]
    · rfl

/-- How the attempt for an address ends. -/
inductive Fate
  /-- The loop goes on with the next address. -/
  | next
  /-- There is no binding to the bind address, and the loop breaks. -/
  | unbound
  /-- `connect` succeeds. -/
  | atOnce
  /-- It succeeds after a wait. -/
  | waited
deriving DecidableEq, Repr

def fate (bnd : Bool) (a : Attempt) : Option Fate :=
  if a.socket then
    if bnd ∧ ¬(a.bindLookup ∧ a.bind) then some .unbound
    else match a.connect with
      | .none => some .atOnce
      | some errno => (waits a.rounds errno).map fun ok => if ok then .waited else .next
  else some .next

/-- The address that the loop ends with connects at once. -/
def AtOnce (bnd : Bool) : List Attempt → Prop
  | [] => False
  | a :: ai => fate bnd a = some .atOnce ∨ fate bnd a = some .next ∧ AtOnce bnd ai

instance decAtOnce (bnd : Bool) : (ai : List Attempt) → Decidable (AtOnce bnd ai)
  | [] => .isFalse id
  | a :: ai =>
    have := decAtOnce bnd ai
    inferInstanceAs (Decidable (fate bnd a = some .atOnce ∨ fate bnd a = some .next ∧ AtOnce bnd ai))

/-! What becomes of the sockets. -/

/-- Every socket has been closed, once. -/
structure AllClosed (net : Sockets) : Prop where
  closed : ∀ s, s ∈ net.closed ↔ ∃ n : Nat, n < net.opened ∧ s = n
  once : net.closed.Nodup
  modes : ∀ m ∈ net.modes, m.1 < net.opened

/-- Every socket but `sock` has been closed, none of them twice. -/
structure ClosesRest (sock : Int) (net : Sockets) : Prop where
  own : sock ≠ sockError → ∃ n : Nat, n < net.opened ∧ sock = n
  closed : ∀ n : Nat, n < net.opened → ((n : Int) ∈ net.closed ↔ (n : Int) ≠ sock)
  once : net.closed.Nodup

theorem allClosed_none : AllClosed .none :=
  ⟨by simp [Sockets.none], List.nodup_nil, by simp [Sockets.none]⟩

section
variable {net : Sockets}

theorem fresh_ne (net : Sockets) : net.fresh ≠ sockError := by
  unfold Sockets.fresh sockError
  omega

theorem AllClosed.rest (h : AllClosed net) : ClosesRest sockError net := by
  refine ⟨fun hne => absurd rfl hne, ?_, h.once⟩
  intro n hn
  have hne : (n : Int) ≠ sockError := by
    unfold sockError
    omega
  exact iff_of_true ((h.closed n).2 ⟨n, hn, rfl⟩) hne

theorem AllClosed.fresh_open (h : AllClosed net) : net.fresh ∉ net.closed := by
  intro hmem
  obtain ⟨n, hn, heq⟩ := (h.closed _).1 hmem
  unfold Sockets.fresh at heq
  omega

/-- A new socket, whatever modes it is set to. -/
theorem AllClosed.one_open (h : AllClosed net) {net' : Sockets} (hopened : net'.opened = net.opened + 1)
    (hclosed : net'.closed = net.closed) : ClosesRest net.fresh net' := by
  refine ⟨fun _ => ⟨net.opened, by omega, rfl⟩, ?_, by rw [hclosed]; exact h.once⟩
  intro n hn
  rw [hclosed, h.closed]
  unfold Sockets.fresh
  constructor
  · rintro ⟨m, hm, heq⟩
    omega
  · intro hne
    exact ⟨n, by omega, rfl⟩

/-- Closing it leaves none. -/
theorem AllClosed.close_fresh (h : AllClosed net) {net' : Sockets} (hopened : net'.opened = net.opened + 1)
    (hclosed : net'.closed = net.closed) (hmodes : ∀ m ∈ net'.modes, m.1 < net'.opened) :
    AllClosed (net'.close net.fresh) := by
  refine ⟨?_, ?_, hmodes⟩
  · intro s
    rw [Sockets.closed_close, Sockets.opened_close, List.mem_cons, hclosed, hopened, h.closed]
    unfold Sockets.fresh
    constructor
    · rintro (rfl | ⟨n, hn, rfl⟩)
      · exact ⟨net.opened, by omega, rfl⟩
      · exact ⟨n, by omega, rfl⟩
    · rintro ⟨n, hn, rfl⟩
      by_cases hlast : n = net.opened
      · exact Or.inl (by rw [hlast])
      · exact Or.inr ⟨n, by omega, rfl⟩
  · rw [Sockets.closed_close, hclosed]
    exact List.nodup_cons.2 ⟨h.fresh_open, h.once⟩

/-- A new socket is blocking. -/
theorem AllClosed.fresh_blocking (h : AllClosed net) : net.socket.blocking net.fresh = true := by
  have hnone : net.modes.lookup net.fresh = .none := by
    rw [List.lookup_eq_none_iff]
    intro m hm
    have hold := h.modes m hm
    unfold Sockets.fresh
    simp
    omega
  rw [Sockets.blocking, Sockets.modes_socket, hnone]
  rfl

/-- The new socket of an attempt, non-blocking where there is a timeout. -/
def started (timeout : Int) (net : Sockets) : Sockets :=
  if timeout > 0 then net.socket.setBlocking net.fresh false else net.socket

theorem started_opened (timeout : Int) (net : Sockets) : (started timeout net).opened = net.opened + 1 := by
  unfold started
  split <;> rfl

theorem started_closed (timeout : Int) (net : Sockets) : (started timeout net).closed = net.closed := by
  unfold started
  split <;> rfl

theorem AllClosed.started_modes (h : AllClosed net) (timeout : Int) :
    ∀ m ∈ (started timeout net).modes, m.1 < (started timeout net).opened := by
  intro m hm
  rw [started_opened]
  unfold started at hm
  split at hm
  · rcases List.mem_cons.1 hm with rfl | hm
    · unfold Sockets.fresh
      omega
    · have := h.modes m hm
      omega
  · have := h.modes m hm
    omega

theorem AllClosed.started_blocking (h : AllClosed net) (timeout : Int) :
    (started timeout net).blocking net.fresh = decide (timeout ≤ 0) := by
  unfold started
  split
  · next hpos => simp [hpos]
  · next hpos =>
    rw [h.fresh_blocking]
    simp only [gt_iff_lt, Int.not_lt] at hpos
    simp [hpos]

end

/-- What the attempt leaves: whether the loop breaks, `sock` and the sockets. -/
def left (timeout : Int) (a : Attempt) (net : Sockets) : Fate → Bool × Int × Sockets
  | .next => (false, sockError, if a.socket then (started timeout net).close net.fresh else net)
  | .unbound => (true, sockError, (started timeout net).close net.fresh)
  | .atOnce => (true, net.fresh, started timeout net)
  | .waited => (true, net.fresh,
      if timeout ≥ 0 then (started timeout net).setBlocking net.fresh true else started timeout net)

theorem connectAddr_eq (timeout : Int) (bnd : Bool) (a : Attempt) (net : Sockets) :
    connectAddr timeout bnd a net = (fate bnd a).map (left timeout a net) := by
  unfold connectAddr fate
  by_cases hsocket : a.socket = true
  · simp only [if_pos hsocket]
    by_cases hbound : bnd = true ∧ ¬(a.bindLookup = true ∧ a.bind = true)
    · rw [if_pos hbound, if_pos hbound]
      rfl
    · rw [if_neg hbound, if_neg hbound]
      cases a.connect with
      | none => rfl
      | some errno =>
        dsimp only
        rw [waitLoop_eq]
        cases waits a.rounds errno with
        | none => rfl
        | some ok =>
          have hfresh := fresh_ne net
          cases ok <;> simp [hsocket, hfresh, started, left]
  · simp only [if_neg hsocket]
    simp [hsocket, left]

/-- A loop that goes on has closed its socket. -/
theorem left_next {timeout : Int} {a : Attempt} {net : Sockets} (h : AllClosed net) :
    AllClosed (left timeout a net .next).2.2 := by
  dsimp only [left]
  split
  · exact h.close_fresh (started_opened _ _) (started_closed _ _) (h.started_modes _)
  · exact h

/-- A loop that breaks leaves one socket open, or none. -/
theorem left_rest {timeout : Int} {a : Attempt} {net : Sockets} (h : AllClosed net) {f : Fate}
    (hf : f ≠ .next) : ClosesRest (left timeout a net f).2.1 (left timeout a net f).2.2 := by
  cases f with
  | next => exact absurd rfl hf
  | unbound => exact (h.close_fresh (started_opened _ _) (started_closed _ _) (h.started_modes _)).rest
  | atOnce => exact h.one_open (started_opened _ _) (started_closed _ _)
  | waited =>
    apply h.one_open
    · dsimp only [left]
      split
      · exact started_opened _ _
      · exact started_opened _ _
    · dsimp only [left]
      split
      · exact started_closed _ _
      · exact started_closed _ _

/-- It is blocking but for a connection at once with a timeout. -/
theorem left_blocking {timeout : Int} {a : Attempt} {net : Sockets} (h : AllClosed net) {f : Fate}
    (hf : f ≠ .next) :
    ((left timeout a net f).2.1 ≠ sockError →
      (left timeout a net f).2.2.blocking (left timeout a net f).2.1 = true) ↔
    timeout ≤ 0 ∨ f ≠ .atOnce := by
  have hfresh := fresh_ne net
  cases f with
  | next => exact absurd rfl hf
  | unbound => simp [left]
  | atOnce => simp [left, hfresh, h.started_blocking]
  | waited =>
    dsimp only [left]
    split
    · simp
    · next hneg => simp [h.started_blocking, Int.le_of_lt (Int.not_le.1 hneg)]

/-- What is wanted: one usable socket, or none. -/
structure LeavesOne (sock : Int) (net : Sockets) : Prop extends ClosesRest sock net where
  blocking : sock ≠ sockError → net.blocking sock = true

theorem connectLoop_leaves {timeout : Int} {bnd : Bool} {ai : List Attempt} {net net' : Sockets} {sock : Int}
    (h : AllClosed net) (hrun : connectLoop timeout bnd ai sockError net = some (sock, net')) :
    ClosesRest sock net' ∧ ((sock ≠ sockError → net'.blocking sock = true) ↔ timeout ≤ 0 ∨ ¬AtOnce bnd ai) := by
  induction ai generalizing net with
  | nil =>
    cases hrun
    exact ⟨h.rest, iff_of_true (fun hne => absurd rfl hne) (Or.inr id)⟩
  | cons a ai ih =>
    rw [connectLoop, connectAddr_eq] at hrun
    cases hfate : fate bnd a with
    | none =>
      rw [hfate] at hrun
      cases hrun
    | some f =>
      rw [hfate, Option.map_some, Option.bind_eq_bind, Option.bind_some] at hrun
      by_cases hf : f = .next
      · subst hf
        have hrest := ih (left_next h) hrun
        have honce : AtOnce bnd (a :: ai) ↔ AtOnce bnd ai := by simp [AtOnce, hfate]
        rw [honce]
        exact hrest
      · have hstop : (left timeout a net f).1 = true := by
          cases f with
          | next => exact absurd rfl hf
          | unbound => rfl
          | atOnce => rfl
          | waited => rfl
        have honce : AtOnce bnd (a :: ai) ↔ f = .atOnce := by simp [AtOnce, hfate, hf]
        have hleft := @left_rest timeout a _ h _ hf
        have hblocking := @left_blocking timeout a _ h _ hf
        rw [honce]
        dsimp only at hrun
        rw [if_pos hstop, Option.some.injEq] at hrun
        obtain ⟨hsock, hnet⟩ := Prod.mk.inj hrun
        rw [hsock, hnet] at hleft hblocking
        exact ⟨hleft, hblocking⟩

/-- Every socket but the one that is returned is closed, and none twice. -/
theorem connect_closes_rest {head : Option (List Attempt)} {bnd : Bool} {timeout sock : Int} {net : Sockets}
    (hrun : sockConnectWtoBind head bnd timeout .none = some (sock, net)) : ClosesRest sock net := by
  cases head with
  | none =>
    cases hrun
    exact allClosed_none.rest
  | some ai => exact (connectLoop_leaves allClosed_none hrun).1

/-- One usable socket is left, or none, where there is no timeout or the address that the loop ends
    with does not connect at once. -/
theorem connect_leaves_one (head : Option (List Attempt)) (bnd : Bool) (timeout sock : Int) (net : Sockets)
    (hrun : sockConnectWtoBind head bnd timeout .none = some (sock, net)) :
    LeavesOne sock net ↔ timeout ≤ 0 ∨ ∀ ai, head = some ai → ¬AtOnce bnd ai := by
  have hrest := connect_closes_rest hrun
  have hleaves : LeavesOne sock net ↔ (sock ≠ sockError → net.blocking sock = true) :=
    ⟨fun hone => hone.blocking, fun hblocking => ⟨hrest, hblocking⟩⟩
  rw [hleaves]
  cases head with
  | none =>
    cases hrun
    exact iff_of_true (fun hne => absurd rfl hne) (Or.inr fun ai hai => by cases hai)
  | some ai =>
    rw [(connectLoop_leaves allClosed_none hrun).2]
    simp

/-- The first address refuses after a wait, the second one connects in the second round. -/
theorem connect_leaves_one_second :
    LeavesOne 1 ((Sockets.none.socket.setBlocking 0 false).close 0 |>.socket.setBlocking 1 false
      |>.setBlocking 1 true) :=
  (connect_leaves_one
    (some [⟨true, true, true, some .einprogress, [.ready (.other 111)]⟩,
      ⟨true, true, true, some .einprogress, [.failed .eintr, .ready .none]⟩])
    false 5 1 _ rfl).2 (by decide)

/-- A connection at once with a timeout of five seconds: the socket is left non-blocking. -/
theorem connect_at_once :
    ¬∀ sock net, sockConnectWtoBind (some [⟨true, true, true, .none, []⟩]) false 5 .none = some (sock, net) →
      LeavesOne sock net := by
  intro hone
  have hblocking := (hone 0 (Sockets.none.socket.setBlocking 0 false) rfl).blocking (by decide)
  exact absurd hblocking (by decide)

end IcecastCommon.Net
