import IcecastCommon.Encoding.State
import IcecastCommon.Net.Connect

/- Connecting a socket, in the build without `getaddrinfo`. A helper resolves the host and calls
   `connect`; where the resolving fails it closes the socket that its caller goes on to use. -/
namespace IcecastCommon.Net
open Encoding (Bytes nul)

/-- The outcomes of the calls: whether `socket`, `inet_aton` and `bind` for the bind address,
    `resolver_getip`, `inet_aton` for the host and `connect` succeed, and what the wait comes to with
    this `errno`. -/
structure HostOutcome where
  socket : Bool
  bindAton : Bool
  bind : Bool
  resolve : Bool
  aton : Bool
  connect : Bool
  ready : Ready
  errno : Errno
deriving DecidableEq, Repr

/-- `!hostname || !hostname[0]`. -/
def noHost (hostname : Option Bytes) : Bool :=
  match hostname with
  | none => true
  | some text => text.headD nul = nul

/-- `sock_try_connection`. -/
def sockTryConnection (o : HostOutcome) (sock : Int) (hostname : Option Bytes) (port : BitVec 32)
    (net : Sockets) : Int × Sockets :=
  if noHost hostname ∨ port = 0#32 then (-1, net)
  else if ¬o.resolve then (-1, net.close sock)
  else if ¬o.aton then (-1, net.close sock)
  else (if o.connect then 0 else -1, net)

/-- `sock_connect_non_blocking`. -/
def sockConnectNonBlocking (o : HostOutcome) (hostname : Option Bytes) (port : BitVec 32) (net : Sockets) :
    Int × Sockets :=
  if ¬o.socket then (sockError, net)
  else
    let sock := net.fresh
    let net := net.socket.setBlocking sock false
    let (_, net) := sockTryConnection o sock hostname port net
    (sock, net)

/-- `sock_connect_wto_bind`, where `bnd` says whether a bind address is given. -/
def sockConnectWtoBindHost (o : HostOutcome) (hostname : Option Bytes) (port : BitVec 32) (bnd : Bool)
    (timeout : Int) (net : Sockets) : Int × Sockets :=
  if ¬o.socket then (sockError, net)
  else
    let sock := net.fresh
    let net := net.socket
    if bnd ∧ (¬o.bindAton ∨ ¬o.bind) then (sockError, net.close sock)
    else if timeout ≠ 0 then
      let net := net.setBlocking sock false
      let (tried, net) := sockTryConnection o sock hostname port net
      if tried < 0 then
        if (sockConnected o.ready o.errno).1 ≤ 0 then (sockError, net.close sock)
        else (sock, net.setBlocking sock true)
      else (sock, net.setBlocking sock true)
    else
      let (tried, net) := sockTryConnection o sock hostname port net
      if tried < 0 then (sockError, net.close sock) else (sock, net)

/-- No socket is closed twice, and the one that is returned is still open. -/
structure ClosesOnce (sock : Int) (net : Sockets) : Prop where
  once : net.closed.Nodup
  returned : sock ≠ sockError → sock ∉ net.closed

instance (sock : Int) (net : Sockets) : Decidable (ClosesOnce sock net) :=
  decidable_of_iff (net.closed.Nodup ∧ (sock ≠ sockError → sock ∉ net.closed))
    ⟨fun h => ⟨h.1, h.2⟩, fun h => ⟨h.once, h.returned⟩⟩

/-- A host is given and cannot be resolved. -/
def Unresolved (o : HostOutcome) (hostname : Option Bytes) (port : BitVec 32) : Prop :=
  noHost hostname = false ∧ port ≠ 0#32 ∧ ¬(o.resolve ∧ o.aton)

instance (o : HostOutcome) (hostname : Option Bytes) (port : BitVec 32) :
    Decidable (Unresolved o hostname port) := by
  unfold Unresolved
  infer_instance

section
variable {o : HostOutcome} {hostname : Option Bytes} {port : BitVec 32} {sock : Int} {net : Sockets}

/-- The helper closes the socket where the host cannot be resolved. -/
theorem sockTryConnection_unresolved (h : Unresolved o hostname port) :
    sockTryConnection o sock hostname port net = (-1, net.close sock) := by
  obtain ⟨hhost, hport, hresolve⟩ := h
  rw [sockTryConnection, if_neg (by simp [hhost, hport])]
  split
  · rfl
  · next hr =>
    rw [if_pos]
    intro ha
    exact hresolve ⟨by simpa using hr, ha⟩

/-- Elsewhere it leaves it alone. -/
theorem sockTryConnection_resolved (h : ¬Unresolved o hostname port) :
    (sockTryConnection o sock hostname port net).2 = net := by
  unfold sockTryConnection
  split
  · rfl
  · next hgiven =>
    have hresolve : o.resolve = true ∧ o.aton = true := by
      by_contra hr
      apply h
      rw [not_or] at hgiven
      exact ⟨by simpa using hgiven.1, hgiven.2, hr⟩
    rw [if_neg (by simp [hresolve.1]), if_neg (by simp [hresolve.2])]

variable {net' : Sockets}

/-- A socket that is returned open. -/
theorem closesOnce_open (h : AllClosed net) (hclosed : net'.closed = net.closed) :
    ClosesOnce net.fresh net' := by
  constructor
  · rw [hclosed]
    exact h.once
  · rw [hclosed]
    exact fun _ => h.fresh_open

/-- A socket that is closed and not returned. -/
theorem closesOnce_closed (h : AllClosed net) (hclosed : net'.closed = net.closed) :
    ClosesOnce sockError (net'.close net.fresh) := by
  constructor
  · rw [Sockets.closed_close, hclosed]
    exact List.nodup_cons.2 ⟨h.fresh_open, h.once⟩
  · exact fun hne => absurd rfl hne

/-- A socket that is closed and returned. -/
theorem not_closesOnce_returned (hclosed : net.fresh ∈ net'.closed) : ¬ClosesOnce net.fresh net' :=
  fun hone => hone.returned (fresh_ne net) hclosed

/-- A socket that is closed twice. -/
theorem not_closesOnce_twice (hclosed : sock ∈ net'.closed) (s : Int) : ¬ClosesOnce s (net'.close sock) :=
  fun hone => (List.nodup_cons.1 hone.once).1 hclosed

theorem nonBlocking_closes (h : AllClosed net) :
    ClosesOnce (sockConnectNonBlocking o hostname port net).1 (sockConnectNonBlocking o hostname port net).2 ↔
      ¬(o.socket ∧ Unresolved o hostname port) := by
  unfold sockConnectNonBlocking
  by_cases hsocket : o.socket = true
  · rw [if_neg (by simp [hsocket])]
    dsimp only
    by_cases hun : Unresolved o hostname port
    · rw [sockTryConnection_unresolved hun]
      exact iff_of_false (not_closesOnce_returned List.mem_cons_self) (fun hnot => hnot ⟨hsocket, hun⟩)
    · rw [sockTryConnection_resolved hun]
      exact iff_of_true (closesOnce_open h rfl) (fun hand => hun hand.2)
  · rw [if_pos hsocket]
    exact iff_of_true ⟨h.once, fun hne => absurd rfl hne⟩ (fun hand => hsocket hand.1)

/-- Behind the bind stage, with a host that cannot be resolved. -/
theorem wtoBind_unresolved (hsocket : o.socket = true) {bnd : Bool} {timeout : Int}
    (hbound : ¬(bnd = true ∧ (¬o.bindAton = true ∨ ¬o.bind = true))) (hun : Unresolved o hostname port) :
    ¬ClosesOnce (sockConnectWtoBindHost o hostname port bnd timeout net).1
      (sockConnectWtoBindHost o hostname port bnd timeout net).2 := by
  unfold sockConnectWtoBindHost
  rw [if_neg (by simp [hsocket])]
  dsimp only
  rw [if_neg hbound]
  split
  · rw [sockTryConnection_unresolved hun]
    dsimp only
    rw [if_pos (by decide)]
    split
    · exact not_closesOnce_twice List.mem_cons_self _
    · exact not_closesOnce_returned List.mem_cons_self
  · rw [sockTryConnection_unresolved hun]
    dsimp only
    rw [if_pos (by decide)]
    exact not_closesOnce_twice List.mem_cons_self _

/-- Behind the bind stage, with a host that can. -/
theorem wtoBind_resolved (h : AllClosed net) (hsocket : o.socket = true) {bnd : Bool} {timeout : Int}
    (hbound : ¬(bnd = true ∧ (¬o.bindAton = true ∨ ¬o.bind = true))) (hun : ¬Unresolved o hostname port) :
    ClosesOnce (sockConnectWtoBindHost o hostname port bnd timeout net).1
      (sockConnectWtoBindHost o hostname port bnd timeout net).2 := by
  unfold sockConnectWtoBindHost
  rw [if_neg (by simp [hsocket])]
  dsimp only
  rw [if_neg hbound]
  split
  · rw [sockTryConnection_resolved hun]
    split
    · split
      · exact closesOnce_closed h rfl
      · exact closesOnce_open h rfl
    · exact closesOnce_open h rfl
  · rw [sockTryConnection_resolved hun]
    split
    · exact closesOnce_closed h rfl
    · exact closesOnce_open h rfl

theorem wtoBind_closes (h : AllClosed net) (bnd : Bool) (timeout : Int) :
    ClosesOnce (sockConnectWtoBindHost o hostname port bnd timeout net).1
        (sockConnectWtoBindHost o hostname port bnd timeout net).2 ↔
      ¬(o.socket ∧ (bnd → o.bindAton ∧ o.bind) ∧ Unresolved o hostname port) := by
  by_cases hsocket : o.socket = true
  · by_cases hbound : bnd = true ∧ (¬o.bindAton = true ∨ ¬o.bind = true)
    · have hfailed : ¬(bnd = true → o.bindAton = true ∧ o.bind = true) := by
        intro hall
        exact hbound.2.elim (fun hn => hn (hall hbound.1).1) (fun hn => hn (hall hbound.1).2)
      unfold sockConnectWtoBindHost
      rw [if_neg (by simp [hsocket])]
      dsimp only
      rw [if_pos hbound]
      exact iff_of_true (closesOnce_closed h rfl) (fun hand => hfailed hand.2.1)
    · have hpassed : bnd = true → o.bindAton = true ∧ o.bind = true := by
        intro hbnd
        by_contra hnot
        exact hbound ⟨hbnd, Decidable.not_and_iff_or_not.1 hnot⟩
      by_cases hun : Unresolved o hostname port
      · exact iff_of_false (wtoBind_unresolved hsocket hbound hun) (fun hnot => hnot ⟨hsocket, hpassed, hun⟩)
      · exact iff_of_true (wtoBind_resolved h hsocket hbound hun) (fun hand => hun hand.2.2)
  · unfold sockConnectWtoBindHost
    rw [if_pos hsocket]
    exact iff_of_true ⟨h.once, fun hne => absurd rfl hne⟩ (fun hand => hsocket hand.1)

end

/-- Both functions close their socket once at most and return it open, but for a host that is given
    and cannot be resolved. -/
theorem closes_once (o : HostOutcome) (hostname : Option Bytes) (port : BitVec 32) (bnd : Bool) (timeout : Int) :
    (ClosesOnce (sockConnectNonBlocking o hostname port .none).1 (sockConnectNonBlocking o hostname port .none).2 ↔
      ¬(o.socket ∧ Unresolved o hostname port)) ∧
    (ClosesOnce (sockConnectWtoBindHost o hostname port bnd timeout .none).1
        (sockConnectWtoBindHost o hostname port bnd timeout .none).2 ↔
      ¬(o.socket ∧ (bnd → o.bindAton ∧ o.bind) ∧ Unresolved o hostname port)) :=
  ⟨nonBlocking_closes allClosed_none, wtoBind_closes allClosed_none bnd timeout⟩

/-- A host that the resolver does not know: with a timeout of 0 the socket is closed twice, and the
    other function returns it closed. -/
theorem unresolved_closes_twice :
    (sockConnectWtoBindHost ⟨true, true, true, false, true, true, .timeout, .none⟩ (some [120]) 80#32 false 0
        .none).2.closed = [0, 0] ∧
      ¬ClosesOnce
        (sockConnectNonBlocking ⟨true, true, true, false, true, true, .timeout, .none⟩ (some [120]) 80#32 .none).1
        (sockConnectNonBlocking ⟨true, true, true, false, true, true, .timeout, .none⟩ (some [120]) 80#32 .none).2 := by
  decide

end IcecastCommon.Net
