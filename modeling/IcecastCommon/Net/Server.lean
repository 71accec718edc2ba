import IcecastCommon.Net.Connect

/- Sockets for incoming connections, in the build with `getaddrinfo`, and the probe for addresses of
   IPv4 mapped into IPv6: it listens, connects to itself and accepts. On each of its paths every
   socket that was opened is closed, once. -/
namespace IcecastCommon.Net

/-! `sock_get_server_socket`. -/

/-- An address of the list, and what comes of it in a pass: whether there is a socket, and whether that
    is bound. A pass keeps to `AF_INET6` or does not. -/
structure Address where
  inet6 : Bool
  bound : Bool → Option Bool

/-- `for (ai = res; ai; ai = ai->ai_next)` with the socket that it returns, if any. -/
def serverLoop (preferInet6 : Bool) : List Address → Sockets → Option Int × Sockets
  | [], net => (none, net)
  | ai :: rest, net =>
    if preferInet6 ∧ ai.inet6 = false then serverLoop preferInet6 rest net
    else match ai.bound preferInet6 with
      | none => serverLoop preferInet6 rest net
      | some false => serverLoop preferInet6 rest (net.socket.close net.fresh)
      | some true => (some net.fresh, net.socket)

/-- `while (true)`, which makes a second pass after one that prefers `AF_INET6`. -/
def serverPasses (preferInet6 : Bool) (res : List Address) (net : Sockets) : Option Int × Sockets :=
  match serverLoop preferInet6 res net with
  | (some sock, net) => (some sock, net)
  | (none, net) => if preferInet6 then serverLoop false res net else (none, net)

/-- `sock_get_server_socket`, where `res` is the list that `getaddrinfo` gives, if it succeeds. -/
def sockGetServerSocket (port : Int) (res : Option (List Address)) (preferInet6 : Bool) (net : Sockets) :
    Int × Sockets :=
  if port < 0 then (sockError, net)
  else match res with
    | none => (sockError, net)
    | some res => ((serverPasses preferInet6 res net).1.getD sockError, (serverPasses preferInet6 res net).2)

/-! `sock_accept`. -/

/-- The outcomes: whether the server's socket is valid and `accept` gives one, and what `getnameinfo` makes
    of the peer's address. -/
structure Accepted where
  valid : Bool
  accept : Bool
  name : Option (List UInt8)
deriving DecidableEq, Repr

/-- `unknown` -/
def unknown : List UInt8 := [117, 110, 107, 110, 111, 119, 110]

/-- `sock_accept` with a buffer for the peer's address: the socket, and the text in the buffer. -/
def sockAccept (a : Accepted) (net : Sockets) : Int × List UInt8 × Sockets :=
  if a.valid ∧ a.accept then (net.fresh, a.name.getD unknown, net.socket) else (sockError, [], net)

/-! `sock_is_ipv4_mapped_supported`. -/

/-- The outcomes of the probe: of the calls for its server, of `listen` and `getsockname`, whether that gives an
    address of `AF_INET6`, of the connection to `127.0.0.1`, and of `sock_accept`. -/
structure Probe where
  res : Option (List Address)
  listen : Bool
  getsockname : Bool
  inet6 : Bool
  connect : Option (List Attempt)
  accepted : Accepted

/-- `::ffff:127.0.0.1` -/
def mappedLocalhost : List UInt8 := [58, 58, 102, 102, 102, 102, 58, 49, 50, 55, 46, 48, 46, 48, 46, 49]

/-- `sock_is_ipv4_mapped_supported` -/
def sockIsIpv4MappedSupported (p : Probe) (net : Sockets) : Option (Bool × Sockets) :=
  let (ssock, net) := sockGetServerSocket 0 p.res true net
  if ssock = sockError then some (false, net)
  else if p.listen = false then some (false, net.close ssock)
  else if p.getsockname = false then some (false, net.close ssock)
  else if p.inet6 = false then some (false, net.close ssock)
  else do
    let (csock, net) ← sockConnectWtoBind p.connect false 0 net
    if csock = sockError then some (false, net.close ssock)
    else
      let net := net.close csock
      let (csock, ip, net) := sockAccept p.accepted net
      if csock = sockError then some (false, net.close ssock)
      else
        let net := net.close csock
        let net := net.close ssock
        some (decide (ip = mappedLocalhost), net)

/-! One socket open. -/

/-- This socket is open, and all others have been closed, once. -/
structure OneOpen (sock : Int) (net : Sockets) : Prop where
  valid : sock ≠ sockError
  rest : AllClosed (net.close sock)

/-- Nothing is open, and -1 is given back, or just the socket that is given back. -/
def Leaves (sock : Int) (net : Sockets) : Prop := sock = sockError ∧ AllClosed net ∨ OneOpen sock net

section
variable {net net' a b : Sockets} {s sock : Int}

theorem AllClosed.fresh_one (h : AllClosed net) (hopened : net'.opened = net.opened + 1)
    (hclosed : net'.closed = net.closed) (hmodes : ∀ m ∈ net'.modes, m.1 < net'.opened) :
    OneOpen net.fresh net' := ⟨fresh_ne net, h.close_fresh hopened hclosed hmodes⟩

theorem AllClosed.socket_modes (h : AllClosed net) : ∀ m ∈ net.socket.modes, m.1 < net.socket.opened := by
  intro m hm
  have hlt := h.modes m hm
  rw [Sockets.opened_socket]
  omega

/-- `b` is what `a` is once `s` is closed as well. -/
structure Shuts (s : Int) (a b : Sockets) : Prop where
  opened : b.opened = a.opened
  closed : b.closed.Perm (s :: a.closed)
  modes : b.modes = a.modes

namespace Shuts

theorem refl (s : Int) (a : Sockets) : Shuts s a (a.close s) := ⟨rfl, List.Perm.refl _, rfl⟩

theorem fresh (S : Shuts s a b) : b.fresh = a.fresh := by
  unfold Sockets.fresh
  rw [S.opened]

theorem socket (S : Shuts s a b) : Shuts s a.socket b.socket :=
  ⟨congrArg (· + 1) S.opened, S.closed, S.modes⟩

theorem close (S : Shuts s a b) (sock : Int) : Shuts s (a.close sock) (b.close sock) :=
  ⟨S.opened, (S.closed.cons sock).trans (List.Perm.swap s sock a.closed), S.modes⟩

theorem setBlocking (S : Shuts s a b) (sock : Int) (block : Bool) :
    Shuts s (a.setBlocking sock block) (b.setBlocking sock block) :=
  ⟨S.opened, S.closed, congrArg (List.cons (sock, block)) S.modes⟩

/-- Once `s` is closed all are. -/
theorem allClosed (S : Shuts s a b) (h : AllClosed b) : AllClosed (a.close s) := by
  refine ⟨fun t => ?_, S.closed.nodup_iff.mp h.once, ?_⟩
  · rw [Sockets.closed_close, Sockets.opened_close, ← S.closed.mem_iff, ← S.opened]
    exact h.closed t
  · rw [Sockets.modes_close, Sockets.opened_close, ← S.modes, ← S.opened]
    exact h.modes

theorem started (S : Shuts s a b) (timeout : Int) : Shuts s (Net.started timeout a) (Net.started timeout b) := by
  unfold Net.started
  rw [S.fresh]
  split
  · exact S.socket.setBlocking _ _
  · exact S.socket

/-- An attempt goes the same way. -/
theorem left (S : Shuts s a b) (timeout : Int) (at' : Attempt) (f : Fate) :
    (Net.left timeout at' b f).1 = (Net.left timeout at' a f).1 ∧
      (Net.left timeout at' b f).2.1 = (Net.left timeout at' a f).2.1 ∧
      Shuts s (Net.left timeout at' a f).2.2 (Net.left timeout at' b f).2.2 := by
  have hstarted := S.started timeout
  cases f with
  | next =>
    refine ⟨rfl, rfl, ?_⟩
    dsimp only [Net.left]
    rw [S.fresh]
    split
    · exact hstarted.close _
    · exact S
  | unbound =>
    refine ⟨rfl, rfl, ?_⟩
    dsimp only [Net.left]
    rw [S.fresh]
    exact hstarted.close _
  | atOnce => exact ⟨rfl, S.fresh, hstarted⟩
  | waited =>
    refine ⟨rfl, S.fresh, ?_⟩
    dsimp only [Net.left]
    rw [S.fresh]
    split
    · exact hstarted.setBlocking _ _
    · exact hstarted

/-- So does the loop over the addresses. -/
theorem connectLoop (S : Shuts s a b) {timeout : Int} {bnd : Bool} {ai : List Attempt} {sock₀ sock : Int}
    {a' : Sockets} (hrun : Net.connectLoop timeout bnd ai sock₀ a = some (sock, a')) :
    ∃ b', Net.connectLoop timeout bnd ai sock₀ b = some (sock, b') ∧ Shuts s a' b' := by
  induction ai generalizing a b sock₀ with
  | nil =>
    cases hrun
    exact ⟨b, rfl, S⟩
  | cons at' ai ih =>
    rw [Net.connectLoop, connectAddr_eq] at hrun ⊢
    cases hfate : fate bnd at' with
    | none =>
      rw [hfate] at hrun
      cases hrun
    | some f =>
      obtain ⟨hbroken, hsock, S'⟩ := S.left timeout at' f
      rw [hfate, Option.map_some, Option.bind_eq_bind, Option.bind_some] at hrun
      rw [Option.map_some, Option.bind_eq_bind, Option.bind_some]
      dsimp only at hrun ⊢
      rw [hbroken, hsock]
      split at hrun
      · next hstop =>
        rw [if_pos hstop]
        cases hrun
        exact ⟨_, rfl, S'⟩
      · next hmore =>
        rw [if_neg hmore]
        exact ih S' hrun

end Shuts

/-! The calls. -/

theorem left_leaves {timeout : Int} {at' : Attempt} (h : AllClosed net) (f : Fate) :
    Leaves (left timeout at' net f).2.1 (left timeout at' net f).2.2 := by
  have hmodes := h.started_modes timeout
  cases f with
  | next => exact Or.inl ⟨rfl, left_next h⟩
  | unbound => exact Or.inl ⟨rfl, h.close_fresh (started_opened _ _) (started_closed _ _) hmodes⟩
  | atOnce => exact Or.inr (h.fresh_one (started_opened _ _) (started_closed _ _) hmodes)
  | waited =>
    refine Or.inr ?_
    dsimp only [left]
    split
    · refine h.fresh_one (started_opened _ _) (started_closed _ _) fun m hm => ?_
      rcases List.mem_cons.1 hm with rfl | hm
      · rw [Sockets.opened_setBlocking, started_opened]
        unfold Sockets.fresh
        omega
      · exact hmodes m hm
    · exact h.fresh_one (started_opened _ _) (started_closed _ _) hmodes

/-- The loop over the addresses ends with a connection. -/
def Connects (bnd : Bool) : List Attempt → Prop
  | [] => False
  | a :: ai => fate bnd a = some .atOnce ∨ fate bnd a = some .waited ∨ fate bnd a = some .next ∧ Connects bnd ai

theorem connectLoop_open {timeout : Int} {bnd : Bool} {ai : List Attempt} (h : AllClosed net)
    (hrun : connectLoop timeout bnd ai sockError net = some (sock, net')) :
    Leaves sock net' ∧ (sock ≠ sockError ↔ Connects bnd ai) := by
  induction ai generalizing net with
  | nil =>
    cases hrun
    exact ⟨Or.inl ⟨rfl, h⟩, iff_of_false (fun hne => hne rfl) id⟩
  | cons at' ai ih =>
    rw [connectLoop, connectAddr_eq] at hrun
    cases hfate : fate bnd at' with
    | none =>
      rw [hfate] at hrun
      cases hrun
    | some f =>
      rw [hfate, Option.map_some, Option.bind_eq_bind, Option.bind_some] at hrun
      have hleft := @left_leaves net timeout at' h f
      have hfresh := fresh_ne net
      cases f with
      | next =>
        have hrest := ih (left_next h) hrun
        exact ⟨hrest.1, hrest.2.trans (by simp [Connects, hfate])⟩
      | unbound =>
        cases hrun
        exact ⟨hleft, iff_of_false (fun hne => hne rfl) (by simp [Connects, hfate])⟩
      | atOnce =>
        cases hrun
        exact ⟨hleft, iff_of_true hfresh (Or.inl hfate)⟩
      | waited =>
        cases hrun
        exact ⟨hleft, iff_of_true hfresh (Or.inr (Or.inl hfate))⟩

/-- A connection while `s` is open. -/
theorem connect_beside {head : Option (List Attempt)} {bnd : Bool} {timeout : Int} (h : AllClosed (net.close s))
    (hrun : sockConnectWtoBind head bnd timeout net = some (sock, net')) :
    ∃ b, Shuts s net' b ∧ Leaves sock b ∧ (sock ≠ sockError ↔ ∃ ai, head = some ai ∧ Connects bnd ai) := by
  cases head with
  | none =>
    cases hrun
    exact ⟨_, .refl s _, Or.inl ⟨rfl, h⟩, iff_of_false (fun hne => hne rfl) (by simp)⟩
  | some ai =>
    obtain ⟨b, hb, S⟩ := (Shuts.refl s net).connectLoop hrun
    obtain ⟨hleaves, hconnects⟩ := connectLoop_open h hb
    exact ⟨b, S, hleaves, hconnects.trans (by simp)⟩

/-! The server's socket. -/

/-- An address that a pass binds a socket to. -/
def Binds (preferInet6 : Bool) (ai : Address) : Prop :=
  (preferInet6 = true → ai.inet6 = true) ∧ ai.bound preferInet6 = some true

/-- What a pass leaves: the socket it returns, if an address can be bound, or none. -/
structure Serves (bindable : Prop) (r : Option Int × Sockets) : Prop where
  served : ∀ sock, r.1 = some sock → OneOpen sock r.2
  failed : r.1 = none → AllClosed r.2
  bound : r.1 ≠ none ↔ bindable

theorem Serves.congr {p q : Prop} {r : Option Int × Sockets} (S : Serves p r) (h : p ↔ q) : Serves q r :=
  ⟨S.served, S.failed, S.bound.trans h⟩

theorem serverLoop_serves (preferInet6 : Bool) (res : List Address) (h : AllClosed net) :
    Serves (∃ ai ∈ res, Binds preferInet6 ai) (serverLoop preferInet6 res net) := by
  induction res generalizing net with
  | nil =>
    refine ⟨fun sock hsock => ?_, fun _ => h, iff_of_false (fun hne => hne rfl) (by simp)⟩
    cases hsock
  | cons ai res ih =>
    rw [serverLoop]
    by_cases hskip : preferInet6 = true ∧ ai.inet6 = false
    · have hnot : ¬Binds preferInet6 ai := fun hb => by simp [hb.1 hskip.1] at hskip
      rw [if_pos hskip]
      exact (ih h).congr (by simp [hnot])
    · rw [if_neg hskip]
      cases hbound : ai.bound preferInet6 with
      | none =>
        have hnot : ¬Binds preferInet6 ai := fun hb => by simp [hb.2] at hbound
        exact (ih h).congr (by simp [hnot])
      | some ok =>
        cases ok with
        | false =>
          have hnot : ¬Binds preferInet6 ai := fun hb => by simp [hb.2] at hbound
          have hclosed : AllClosed (net.socket.close net.fresh) := h.close_fresh rfl rfl h.socket_modes
          exact (ih hclosed).congr (by simp [hnot])
        | true =>
          have hb : Binds preferInet6 ai := ⟨fun hp => by simpa [hp] using hskip, hbound⟩
          refine ⟨fun sock hsock => ?_, fun hnone => ?_, iff_of_true (by simp) ⟨ai, List.mem_cons_self, hb⟩⟩
          · cases hsock
            exact h.fresh_one rfl rfl h.socket_modes
          · cases hnone

/-- An address can be bound, in one of the passes. -/
def Bindable (preferInet6 : Bool) (res : List Address) : Prop :=
  (∃ ai ∈ res, Binds preferInet6 ai) ∨ preferInet6 = true ∧ ∃ ai ∈ res, Binds false ai

theorem serverPasses_serves (preferInet6 : Bool) (res : List Address) (h : AllClosed net) :
    Serves (Bindable preferInet6 res) (serverPasses preferInet6 res net) := by
  have S := serverLoop_serves preferInet6 res h
  unfold serverPasses
  generalize serverLoop preferInet6 res net = r at S
  obtain ⟨found, net₁⟩ := r
  cases found with
  | some sock =>
    have hone : ∃ ai ∈ res, Binds preferInet6 ai := S.bound.1 (by simp)
    exact S.congr (iff_of_true hone (Or.inl hone))
  | none =>
    have hnone : ¬∃ ai ∈ res, Binds preferInet6 ai := fun hb => S.bound.2 hb rfl
    cases preferInet6 with
    | false => exact S.congr (by simp [Bindable, hnone])
    | true => exact (serverLoop_serves false res (S.failed rfl)).congr (by simp [Bindable, hnone])

/-- There is a socket for the server exactly if the port is none below 0, the lookup succeeds and an address
    can be bound. It is the only one left open. -/
theorem server_socket_left (port : Int) (res : Option (List Address)) (preferInet6 : Bool) (h : AllClosed net) :
    Leaves (sockGetServerSocket port res preferInet6 net).1 (sockGetServerSocket port res preferInet6 net).2 ∧
      ((sockGetServerSocket port res preferInet6 net).1 ≠ sockError ↔
        0 ≤ port ∧ ∃ ai, res = some ai ∧ Bindable preferInet6 ai) := by
  unfold sockGetServerSocket
  by_cases hport : port < 0
  · rw [if_pos hport]
    exact ⟨Or.inl ⟨rfl, h⟩, iff_of_false (fun hne => hne rfl) (by omega)⟩
  · rw [if_neg hport]
    cases res with
    | none => exact ⟨Or.inl ⟨rfl, h⟩, iff_of_false (fun hne => hne rfl) (by simp)⟩
    | some res =>
      have S := serverPasses_serves preferInet6 res h
      dsimp only
      generalize serverPasses preferInet6 res net = r at S
      obtain ⟨found, net₁⟩ := r
      cases found with
      | none =>
        have hnone : ¬Bindable preferInet6 res := fun hb => S.bound.2 hb rfl
        exact ⟨Or.inl ⟨rfl, S.failed rfl⟩, iff_of_false (fun hne => hne rfl) (by simp [hnone])⟩
      | some sock =>
        have hone := S.served sock rfl
        exact ⟨Or.inr hone, iff_of_true hone.valid ⟨by omega, res, rfl, S.bound.1 (by simp)⟩⟩

theorem Leaves.allClosed (h : Leaves sock net) (hsock : sock = sockError) : AllClosed net := by
  rcases h with h | h
  · exact h.2
  · exact absurd hsock h.valid

theorem Leaves.oneOpen (h : Leaves sock net) (hsock : sock ≠ sockError) : OneOpen sock net := by
  rcases h with h | h
  · exact absurd h.1 hsock
  · exact h

/-! A peer that is accepted. -/

/-- With the peer's socket and `s` closed, or just `s` where there is no peer, all are. -/
theorem accept_closes (S : Shuts s net b) (h : AllClosed b) (peer : Accepted) :
    (sockAccept peer net).1 = sockError ∧ ¬(peer.valid = true ∧ peer.accept = true) ∧
        AllClosed ((sockAccept peer net).2.2.close s) ∨
      (sockAccept peer net).1 ≠ sockError ∧ (peer.valid = true ∧ peer.accept = true) ∧
        AllClosed (((sockAccept peer net).2.2.close (sockAccept peer net).1).close s) := by
  unfold sockAccept
  by_cases haccept : peer.valid = true ∧ peer.accept = true
  · rw [if_pos haccept]
    have hclosed : AllClosed (b.socket.close b.fresh) := h.close_fresh rfl rfl h.socket_modes
    rw [S.fresh] at hclosed
    exact Or.inr ⟨fresh_ne net, haccept, (S.socket.close net.fresh).allClosed hclosed⟩
  · rw [if_neg haccept]
    exact Or.inl ⟨rfl, haccept, S.allClosed h⟩

theorem unknown_ne : unknown ≠ mappedLocalhost := by decide

/-- A peer without a name does not pass for the mapped address. -/
theorem accept_mapped {peer : Accepted} (haccept : peer.valid = true ∧ peer.accept = true) :
    (sockAccept peer net).2.1 = mappedLocalhost ↔ peer.name = some mappedLocalhost := by
  unfold sockAccept
  rw [if_pos haccept]
  cases peer.name with
  | none => exact iff_of_false unknown_ne (by simp)
  | some name => simp

/-! The probe. -/

/-- Each call does what the probe wants of it, and the peer is seen under the mapped address. -/
structure Supports (p : Probe) : Prop where
  served : ∃ res, p.res = some res ∧ Bindable true res
  listens : p.listen = true
  named : p.getsockname = true
  inet6 : p.inet6 = true
  connects : ∃ ai, p.connect = some ai ∧ Connects false ai
  valid : p.accepted.valid = true
  accepts : p.accepted.accept = true
  mapped : p.accepted.name = some mappedLocalhost

/-- What comes of a path on which the probe gives up. -/
theorem gave_up {p : Probe} {supported : Bool} {a : Sockets} (h : AllClosed a) (hnot : ¬Supports p)
    (hrun : some (false, a) = some (supported, net')) : AllClosed net' ∧ (supported = true ↔ Supports p) := by
  cases hrun
  exact ⟨h, iff_of_false (by simp) hnot⟩

/-- Every path of the probe closes each socket that it opened, once, and the answer is yes exactly if every
    call succeeds and the peer has the mapped address. -/
theorem probe_closes_all (p : Probe) (net net' : Sockets) (supported : Bool) (h : AllClosed net)
    (hrun : sockIsIpv4MappedSupported p net = some (supported, net')) :
    AllClosed net' ∧ (supported = true ↔ Supports p) := by
  obtain ⟨hleft, hserved⟩ := server_socket_left 0 p.res true h
  unfold sockIsIpv4MappedSupported at hrun
  generalize sockGetServerSocket 0 p.res true net = r at hleft hserved hrun
  obtain ⟨ssock, net₁⟩ := r
  dsimp only at hleft hserved hrun
  by_cases hssock : ssock = sockError
  · rw [if_pos hssock] at hrun
    exact gave_up (hleft.allClosed hssock) (fun hs => hserved.2 ⟨by omega, hs.served⟩ hssock) hrun
  rw [if_neg hssock] at hrun
  have hone := hleft.oneOpen hssock
  by_cases hlisten : p.listen = false
  · rw [if_pos hlisten] at hrun
    exact gave_up hone.rest (fun hs => by simp [hs.listens] at hlisten) hrun
  rw [if_neg hlisten] at hrun
  by_cases hnamed : p.getsockname = false
  · rw [if_pos hnamed] at hrun
    exact gave_up hone.rest (fun hs => by simp [hs.named] at hnamed) hrun
  rw [if_neg hnamed] at hrun
  by_cases hinet6 : p.inet6 = false
  · rw [if_pos hinet6] at hrun
    exact gave_up hone.rest (fun hs => by simp [hs.inet6] at hinet6) hrun
  rw [if_neg hinet6] at hrun
  cases hconnect : sockConnectWtoBind p.connect false 0 net₁ with
  | none =>
    rw [hconnect] at hrun
    cases hrun
  | some c =>
    obtain ⟨csock, net₂⟩ := c
    obtain ⟨b, S, hcleft, hconnects⟩ := connect_beside hone.rest hconnect
    rw [hconnect, Option.bind_eq_bind, Option.bind_some] at hrun
    dsimp only at hrun
    by_cases hcsock : csock = sockError
    · rw [if_pos hcsock] at hrun
      exact gave_up (S.allClosed (hcleft.allClosed hcsock)) (fun hs => hconnects.2 hs.connects hcsock) hrun
    rw [if_neg hcsock] at hrun
    have hrest := (hcleft.oneOpen hcsock).rest
    rcases accept_closes (S.close csock) hrest p.accepted with A | A
    · rw [if_pos A.1] at hrun
      exact gave_up A.2.2 (fun hs => A.2.1 ⟨hs.valid, hs.accepts⟩) hrun
    · obtain ⟨hasock, haccepted, hall⟩ := A
      rw [if_neg hasock, Option.some.injEq] at hrun
      obtain ⟨hsupported, hnet⟩ := Prod.mk.inj hrun
      refine ⟨hnet ▸ hall, ?_⟩
      rw [← hsupported, decide_eq_true_iff, accept_mapped haccepted]
      refine ⟨fun hmapped => ?_, fun hs => hs.mapped⟩
      exact ⟨(hserved.1 hssock).2, by simpa using hlisten, by simpa using hnamed, by simpa using hinet6,
        hconnects.1 hcsock, haccepted.1, haccepted.2, hmapped⟩

end

/-- The first pass skips the address of IPv4. The connection to the one of IPv6 succeeds at once. -/
def mappedRun : Probe :=
  ⟨some [⟨false, fun _ => some true⟩, ⟨true, fun _ => some true⟩], true, true, true,
    some [⟨true, false, false, .none, []⟩], ⟨true, true, some mappedLocalhost⟩⟩

/-- The client, the socket that is accepted and the server are closed, in this order. -/
theorem probe_closes_all_mapped : AllClosed ⟨3, [0, 2, 1], []⟩ ∧ (true = true ↔ Supports mappedRun) :=
  probe_closes_all mappedRun .none ⟨3, [0, 2, 1], []⟩ true allClosed_none rfl

end IcecastCommon.Net
