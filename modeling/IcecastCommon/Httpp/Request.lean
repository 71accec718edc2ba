import IcecastCommon.Httpp.Headers

/- What `httpp_parse` does to a parser. Its first line is cut at spaces into a method, a URI
   and a version; `requestEffect` says what follows from them. It depends on the first line
   alone. The headers of an accepted request are set behind it. -/
namespace IcecastCommon.Httpp
open Avl Library
open Encoding (Bytes nul cString cString_of_plain cString_append_nul nul_notMem_cString cString_length_le)

/-! Words. -/

/-- A space becomes a NUL. -/
def blankSpace (c : UInt8) : UInt8 := if c = space then nul else c

/-- Where words begin behind spaces, in a string at the position `i`. -/
def wordStarts : Nat → Bool → Bytes → List Nat
  | _, _, [] => []
  | i, whitespace, c :: s =>
    if c = space then wordStarts (i + 1) true s
    else if whitespace then i :: wordStarts (i + 1) false s
    else wordStarts (i + 1) false s

/-- The words of a first line behind its first one. -/
def lineWords (s : Bytes) : List Nat := wordStarts 0 false (s.take (scanned s))

/-- A first line with the spaces between its words blanked out. -/
def cutWords (s : Bytes) : Bytes := (s.take (scanned s)).map blankSpace ++ s.drop (scanned s)

theorem cutWords_length (s : Bytes) : (cutWords s).length = s.length := by
  rw [cutWords, List.length_append, List.length_map, ← List.length_append, List.take_append_drop]

/-- A string cut at a character. -/
def cutAt (c : UInt8) : Bytes → Option (Bytes × Bytes)
  | [] => none
  | d :: s => if d = c then some ([], s) else (cutAt c s).map fun r => (d :: r.1, r.2)

theorem cutAt_some {c : UInt8} {s a b : Bytes} (h : cutAt c s = some (a, b)) : s = a ++ c :: b ∧ c ∉ a := by
  induction s generalizing a with
  | nil => cases h
  | cons d s ih =>
    rw [cutAt] at h
    by_cases hd : d = c
    · rw [if_pos hd] at h
      cases h
      exact ⟨by rw [hd]; rfl, List.not_mem_nil⟩
    · rw [if_neg hd] at h
      obtain ⟨⟨a', b'⟩, hcut, hpair⟩ := Option.map_eq_some_iff.mp h
      cases hpair
      obtain ⟨hs, hnot⟩ := ih hcut
      refine ⟨by rw [hs]; rfl, ?_⟩
      rw [List.mem_cons]
      exact fun hm => hm.elim (fun e => hd e.symm) hnot

theorem cutAt_append {c : UInt8} {a : Bytes} (h : c ∉ a) (b : Bytes) : cutAt c (a ++ c :: b) = some (a, b) := by
  induction a with
  | nil => exact if_pos rfl
  | cons d a ih =>
    have hd : d ≠ c := fun e => h (e ▸ List.mem_cons_self)
    have ha : c ∉ a := fun hm => h (List.mem_cons_of_mem d hm)
    rw [List.cons_append, cutAt, if_neg hd, ih ha]
    rfl

theorem cutAt_none {c : UInt8} {s : Bytes} : cutAt c s = none ↔ c ∉ s := by
  constructor
  · intro h hm
    obtain ⟨a, b, hs, ha⟩ := List.eq_append_cons_of_mem hm
    rw [hs, cutAt_append ha] at h
    cases h
  · intro h
    cases hcut : cutAt c s with
    | none => rfl
    | some r =>
      obtain ⟨hs, _⟩ := cutAt_some (show cutAt c s = some (r.1, r.2) from hcut)
      rw [hs] at h
      exact absurd (List.mem_append_right _ List.mem_cons_self) h

/-- `strchr` finds where the string is cut. -/
theorem idxOf?_eq (c : UInt8) (s : Bytes) : s.idxOf? c = (cutAt c s).map fun r => r.1.length := by
  induction s with
  | nil => rfl
  | cons d s ih =>
    rw [List.idxOf?_cons, cutAt, ih]
    by_cases hd : d = c
    · simp [hd]
    · rw [if_neg (by simpa using hd), if_neg hd, Option.map_map, Option.map_map]
      rfl

/-- The loop over a first line that `found` words of already. -/
theorem requestLoop_spec (done t r : Bytes) {n : Nat} (whitespace : Bool) (found : List Nat)
    (hn : n ≤ t.length) (hfound : found.length ≤ 2) :
    requestLoop 0 n done.length whitespace found.length (done ++ (t ++ r)) found[0]? found[1]? =
      some (if (found ++ wordStarts done.length whitespace (t.take n)).length ≥ 3 then none
        else some (done ++ ((t.take n).map blankSpace ++ t.drop n ++ r),
          (found ++ wordStarts done.length whitespace (t.take n))[0]?,
          (found ++ wordStarts done.length whitespace (t.take n))[1]?)) := by
  -- on the bytes left; `found` are the starts of words noted so far
  induction n generalizing done t whitespace found with
  | zero =>
    have hfew : ¬ (found ++ wordStarts done.length whitespace (t.take 0)).length ≥ 3 := by
      rw [List.take_zero, wordStarts, List.append_nil]
      omega
    rw [if_neg hfew, List.take_zero, wordStarts, List.append_nil]
    rfl
  | succ n ih =>
    obtain ⟨c, t, rfl⟩ := List.exists_cons_of_length_pos (Nat.lt_of_lt_of_le (Nat.succ_pos n) hn)
    rw [List.length_cons] at hn
    have hget : (done ++ (c :: t ++ r))[0 + done.length]? = some c := getElem?_next [] done c (t ++ r)
    have hnext : ∀ d, done ++ (d :: t ++ r) = (done ++ [d]) ++ (t ++ r) := fun d => assoc_next [] done d t r
    unfold requestLoop
    rw [hget, Option.bind_eq_bind, Option.bind_some, List.take_succ_cons, List.drop_succ_cons,
      List.map_cons, wordStarts, blankSpace]
    by_cases hc : c = space
    · have hput : putNul (done ++ (c :: t ++ r)) (0 + done.length) = some (done ++ (nul :: t ++ r)) :=
        putNul_next [] done c (t ++ r)
      have hrest := ih (done ++ [nul]) t true found (by omega) hfound
      rw [length_next] at hrest
      rw [if_pos hc, if_pos hc, if_pos hc, hput, Option.bind_eq_bind, Option.bind_some, hnext, hrest]
      simp
    · rw [if_neg hc, if_neg hc, if_neg hc]
      by_cases hw : whitespace = true
      · -- a word begins
        rw [if_pos hw, if_pos hw]
        match found, hfound with
        | [], _ =>
          have hrest := ih (done ++ [c]) t false [0 + done.length] (by omega) (by simp)
          rw [length_next] at hrest
          simp only [List.length_nil, hnext]
          refine hrest.trans ?_
          simp
        | [u], _ =>
          have hrest := ih (done ++ [c]) t false [u, 0 + done.length] (by omega) (by simp)
          rw [length_next] at hrest
          simp only [List.length_singleton, hnext]
          refine hrest.trans ?_
          simp
        | [u, v], _ =>
          have hmany : ([u, v] ++ done.length :: wordStarts (done.length + 1) false (t.take n)).length ≥ 3 := by
            simp
          rw [if_pos hmany]
          rfl
      · have hrest := ih (done ++ [c]) t false found (by omega) hfound
        rw [length_next] at hrest
        rw [if_neg hw, if_neg hw, hnext, hrest]
        simp

theorem requestLoop_line (s r : Bytes) {n : Nat} (hn : n ≤ s.length) :
    requestLoop 0 n 0 false 0 (s ++ nul :: r) none none =
      some (if (wordStarts 0 false (s.take n)).length ≥ 3 then none
        else some ((s.take n).map blankSpace ++ s.drop n ++ nul :: r,
          (wordStarts 0 false (s.take n))[0]?, (wordStarts 0 false (s.take n))[1]?)) := by
  have h := requestLoop_spec [] s (nul :: r) false [] hn (by decide)
  simp only [List.length_nil, List.nil_append, List.getElem?_nil] at h
  exact h

/-- The scan of `httpp_parse` finds the words of its line, or too many. -/
theorem scanRequest_spec {s : Bytes} (hs : nul ∉ s) (r : Bytes) :
    scanRequest (s ++ nul :: r) 0 =
      some (if (lineWords s).length ≥ 3 then none
        else some (cutWords s ++ nul :: r, (lineWords s)[0]?, (lineWords s)[1]?)) := by
  have hstring := stringAt_zero s r
  rw [cString_of_plain hs] at hstring
  rw [scanRequest, Option.bind_eq_bind, bind_of_eq hstring, ← scanned, lineWords, cutWords]
  exact requestLoop_line s r (scanned_le s)

/-- The first word behind spaces: what it is preceded by, and where the next ones are. -/
theorem wordStarts_cons {i : Nat} {whitespace : Bool} {t : Bytes} {u : Nat} {rest : List Nat}
    (h : wordStarts i whitespace t = u :: rest) :
    ∃ a c b, t = a ++ c :: b ∧ u = i + a.length ∧ (whitespace = false → space ∈ a) ∧
      rest = wordStarts (u + 1) false b := by
  induction t generalizing i whitespace with
  | nil => cases h
  | cons c t ih =>
    rw [wordStarts] at h
    by_cases hc : c = space
    · rw [if_pos hc] at h
      obtain ⟨a, d, b, ht, hu, _, hrest⟩ := ih h
      refine ⟨c :: a, d, b, by rw [ht]; rfl, ?_, fun _ => hc ▸ List.mem_cons_self, hrest⟩
      rw [hu, List.length_cons]
      omega
    · rw [if_neg hc] at h
      by_cases hw : whitespace = true
      · rw [if_pos hw] at h
        obtain ⟨rfl, rfl⟩ := List.cons.inj h
        refine ⟨[], c, t, rfl, rfl, ?_, rfl⟩
        intro hfalse
        rw [hfalse] at hw
        cases hw
      · rw [if_neg hw] at h
        obtain ⟨a, d, b, ht, hu, hspace, hrest⟩ := ih h
        refine ⟨c :: a, d, b, by rw [ht]; rfl, ?_, fun _ => List.mem_cons_of_mem c (hspace rfl), hrest⟩
        rw [hu, List.length_cons]
        omega

/-- The first word lies inside the line. -/
theorem lineWords_le {s : Bytes} {u : Nat} (h : (lineWords s)[0]? = some u) : u ≤ (cutWords s).length := by
  rw [lineWords] at h
  cases hw : wordStarts 0 false (s.take (scanned s)) with
  | nil =>
    rw [hw] at h
    cases h
  | cons u' rest =>
    rw [hw] at h
    cases h
    obtain ⟨a, c, b, ht, hu, _⟩ := wordStarts_cons hw
    have hlen := congrArg List.length ht
    rw [List.length_take, List.length_append, List.length_cons] at hlen
    rw [cutWords_length]
    omega

theorem mem_blankSpace {a : Bytes} (h : space ∈ a) : nul ∈ a.map blankSpace :=
  List.mem_map.mpr ⟨space, h, if_pos rfl⟩

/-- The second word lies behind the NUL of the first one. -/
theorem lineWords_apart {s : Bytes} {u v : Nat} (hu : (lineWords s)[0]? = some u)
    (hv : (lineWords s)[1]? = some v) :
    u + (cString ((cutWords s).drop u)).length ≤ v ∧ v ≤ (cutWords s).length := by
  rw [lineWords] at hu hv
  cases hw : wordStarts 0 false (s.take (scanned s)) with
  | nil =>
    rw [hw] at hu
    cases hu
  | cons u' rest =>
    rw [hw] at hu hv
    cases hu
    obtain ⟨a, c, b, ht, rfl, _, hrest⟩ := wordStarts_cons hw
    cases hw' : wordStarts (0 + a.length + 1) false b with
    | nil =>
      rw [hrest, hw'] at hv
      cases hv
    | cons v' rest' =>
      rw [hrest, hw'] at hv
      cases hv
      obtain ⟨a', c', b', rfl, rfl, hspace, _⟩ := wordStarts_cons hw'
      have hcut : cutWords s = a.map blankSpace ++ (blankSpace c :: a'.map blankSpace ++
          ((c' :: b').map blankSpace ++ s.drop (scanned s))) := by
        rw [cutWords, ht]
        simp
      have hdrop : (cutWords s).drop (0 + a.length) = blankSpace c :: a'.map blankSpace ++
          ((c' :: b').map blankSpace ++ s.drop (scanned s)) := by
        have hmap : (a.map blankSpace).length = a.length := List.length_map _
        rw [hcut, Nat.zero_add, ← hmap, List.drop_left]
      obtain ⟨a₁, a₂, hnul⟩ := List.append_of_mem (mem_blankSpace (hspace rfl))
      have hstring : (cString ((cutWords s).drop (0 + a.length))).length ≤ 1 + a'.length := by
        have hfront : blankSpace c :: a'.map blankSpace ++ ((c' :: b').map blankSpace ++ s.drop (scanned s)) =
            (blankSpace c :: a₁) ++ nul :: (a₂ ++ ((c' :: b').map blankSpace ++ s.drop (scanned s))) := by
          rw [hnul]
          simp
        rw [hdrop, hfront, cString_append_nul]
        have hle := cString_length_le (blankSpace c :: a₁)
        have hlen := congrArg List.length hnul
        rw [List.length_map, List.length_append, List.length_cons] at hlen
        rw [List.length_cons] at hle
        omega
      have hlen := congrArg List.length hcut
      simp only [List.length_append, List.length_map, List.length_cons] at hlen
      constructor <;> omega

/-! What follows from the words. -/

/-- A query string with the NUL behind it, as `httpp_parse` passes it on. -/
def queryBody (query : Bytes) : FormBody where
  bytes := query ++ [nul]
  len := query.length
  fits := by simp
  nonempty := by simp

/-- The path of a URI. -/
def uriPath (uri : Bytes) : Bytes := uri.takeWhile (· ≠ questionMark)

/-- What a URI with a query sets. -/
def uriCalls (uri : Bytes) : List StoreCall :=
  match cutAt questionMark uri with
  | none => []
  | some (_, query) =>
    [.setvar (some varRawuri) (some uri), .setvar (some varQueryargs) (some (questionMark :: query)),
     .parseQuery (some (queryBody query))]

/-- The protocol and its version. -/
def versionOf (version : Bytes) : Option (Bytes × Bytes) :=
  match cutAt slash version with
  | none => none
  | some (protocol, number) => if protocol ≠ [] ∧ number ≠ [] then some (protocol, number) else none

theorem takeWhile_ne_plain {c : UInt8} {s : Bytes} (h : c ∉ s) : s.takeWhile (· ≠ c) = s := by
  rw [List.takeWhile_eq_self_iff]
  intro d hd
  exact decide_eq_true fun e => h (e ▸ hd)

/-- A string up to a character that it is cut at. -/
theorem takeWhile_ne_append {c : UInt8} {a : Bytes} (h : c ∉ a) (b : Bytes) :
    (a ++ c :: b).takeWhile (· ≠ c) = a := by
  rw [List.takeWhile_append_of_pos (List.takeWhile_eq_self_iff.mp (takeWhile_ne_plain h)), List.takeWhile_cons,
    if_neg (by simp), List.append_nil]

/-- The fields of a NUL-free string do not depend on what is behind it. -/
theorem body_fields {body : FormBody} {query r : Bytes} (hbytes : body.bytes = query ++ nul :: r)
    (hlen : body.len = query.length) (h : nul ∉ query) : body.fields = fields query := by
  rw [FormBody.fields, hbytes, hlen, List.take_left]
  cases query with
  | nil => rfl
  | cons c query =>
    have hne : (c :: query ++ nul :: r).head? ≠ some nul := by
      intro e
      exact h (Option.some.inj e ▸ List.mem_cons_self)
    rw [if_neg hne]

section
variable {p : Parser} {m : Maps}

theorem stringAt_plain (pre : Bytes) {s r : Bytes} (h : nul ∉ s) :
    stringAt (pre ++ (s ++ nul :: r)) pre.length = some s := by
  rw [stringAt_start, cString_of_plain h]

/-- The URI is stored, and cut at its query. -/
theorem takeUri_spec (R : Represents p m) {a uri z : Bytes} (huri : nul ∉ uri) :
    ∃ x p', takeUri p (a ++ (uri ++ nul :: z)) a.length = some (a ++ (x ++ nul :: z), p') ∧
      x.length = uri.length ∧ Represents p' ((uriCalls uri).foldl StoreCall.apply m) ∧
      p'.reqType = p.reqType ∧ p'.uri = some (uriPath uri) := by
  rw [takeUri, Option.bind_eq_bind, bind_of_eq (stringAt_plain a huri), idxOf?_eq, uriCalls]
  cases hcut : cutAt questionMark uri with
  | none =>
    refine ⟨uri, { p with uri := some uri }, ?_, rfl, ?_, rfl, ?_⟩
    · simp only [Option.map_none, Option.bind_eq_bind, Option.bind_some, stringAt_plain a huri]
    · exact R.congr rfl fun s => by cases s <;> rfl
    · rw [uriPath, takeWhile_ne_plain (cutAt_none.mp hcut)]
  | some r =>
    obtain ⟨path, query⟩ := r
    obtain ⟨rfl, hpath⟩ := cutAt_some hcut
    have hplain : nul ∉ path ∧ nul ∉ query := by
      rw [List.mem_append, List.mem_cons] at huri
      exact ⟨fun h => huri (Or.inl h), fun h => huri (Or.inr (Or.inr h))⟩
    have hquery : nul ∉ questionMark :: query := by
      rw [List.mem_cons, not_or]
      exact ⟨by decide, hplain.2⟩
    -- the buffer from the query on, before and after it is cut off
    have hbefore : a ++ (path ++ questionMark :: query ++ nul :: z) =
        (a ++ path) ++ (questionMark :: query ++ nul :: z) := by simp
    have hafter : a ++ (path ++ nul :: (query ++ nul :: z)) =
        (a ++ path ++ [nul]) ++ (query ++ nul :: z) := by simp
    have hlen : a.length + path.length = (a ++ path).length := (List.length_append ..).symm
    have hlen' : a.length + path.length + 1 = (a ++ path ++ [nul]).length := by
      rw [List.length_append, List.length_append]
      rfl
    have hargs : stringAt (a ++ (path ++ questionMark :: query ++ nul :: z)) (a.length + path.length) =
        some (questionMark :: query) := by
      rw [hbefore, hlen, stringAt_plain _ hquery]
    have hput : putNul (a ++ (path ++ questionMark :: query ++ nul :: z)) (a.length + path.length) =
        some (a ++ (path ++ nul :: (query ++ nul :: z))) := by
      rw [List.append_assoc]
      exact putNul_next a path questionMark (query ++ nul :: z)
    have hrest : stringAt (a ++ (path ++ nul :: (query ++ nul :: z))) (a.length + path.length + 1) =
        some query := by
      rw [hafter, hlen', stringAt_plain _ hplain.2]
    have hdrop : (a ++ (path ++ nul :: (query ++ nul :: z))).drop (a.length + path.length + 1) =
        query ++ nul :: z := by
      rw [hafter, hlen', List.drop_left]
    have hpathAt : stringAt (a ++ (path ++ nul :: (query ++ nul :: z))) a.length = some path :=
      stringAt_plain a hplain.1
    obtain ⟨p₁, e₁, R₁, hreq₁, _⟩ := R.setvar varRawuri (path ++ questionMark :: query)
    obtain ⟨p₂, e₂, R₂, hreq₂, _⟩ := R₁.setvar varQueryargs (questionMark :: query)
    have hfits : query.length ≤ (query ++ nul :: z).length := by
      rw [List.length_append]
      exact Nat.le_add_right _ _
    have hne : query ++ nul :: z ≠ [] := List.append_ne_nil_of_right_ne_nil _ (List.cons_ne_nil _ _)
    obtain ⟨p₃, e₃, R₃, hreq₃, _⟩ := R₂.parseQuery ⟨query ++ nul :: z, query.length, hfits, hne⟩
    refine ⟨path ++ nul :: query, { p₃ with uri := some path }, ?_, ?_, ?_, ?_, ?_⟩
    · simp only [Option.map_some, Option.bind_eq_bind, e₁, Option.bind_some, hargs, e₂, hput, hrest, hdrop, e₃,
        hpathAt]
      simp
    · simp
    · rw [body_fields rfl rfl hplain.2] at R₃
      have hfields : (queryBody query).fields = fields query := body_fields rfl rfl hplain.2
      have R' : Represents { p₃ with uri := some path } _ := R₃.congr rfl fun s => by cases s <;> rfl
      rw [List.foldl_cons, List.foldl_cons, List.foldl_cons, List.foldl_nil]
      rw [← hfields] at R'
      exact R'
    · exact hreq₃.trans (hreq₂.trans hreq₁)
    · rw [uriPath, takeWhile_ne_append hpath]

/-- The version is cut at its slash, and both parts are stored. -/
theorem takeVersion_spec (R : Represents p m) {b version z : Bytes} (hversion : nul ∉ version) :
    (versionOf version = none →
      takeVersion p (b ++ (version ++ nul :: z)) b.length = some none) ∧
    ∀ protocol number, versionOf version = some (protocol, number) →
      ∃ x p', takeVersion p (b ++ (version ++ nul :: z)) b.length = some (some (b ++ (x ++ nul :: z), p')) ∧
        x.length = version.length ∧
        Represents p' ([.setvar (some varProtocol) (some protocol),
          .setvar (some varVersion) (some number)].foldl StoreCall.apply m) ∧
        p'.reqType = p.reqType ∧ p'.uri = p.uri := by
  rw [takeVersion, Option.bind_eq_bind, bind_of_eq (stringAt_plain b hversion), idxOf?_eq, versionOf]
  cases hcut : cutAt slash version with
  | none =>
    refine ⟨fun _ => rfl, ?_⟩
    intro protocol number h
    cases h
  | some r =>
    obtain ⟨protocol, number⟩ := r
    obtain ⟨rfl, _⟩ := cutAt_some hcut
    have hplain : nul ∉ protocol ∧ nul ∉ number := by
      rw [List.mem_append, List.mem_cons] at hversion
      exact ⟨fun h => hversion (Or.inl h), fun h => hversion (Or.inr (Or.inr h))⟩
    have hput : putNul (b ++ (protocol ++ slash :: number ++ nul :: z)) (b.length + protocol.length) =
        some (b ++ (protocol ++ nul :: (number ++ nul :: z))) := by
      rw [List.append_assoc]
      exact putNul_next b protocol slash (number ++ nul :: z)
    have hafter : b ++ (protocol ++ nul :: (number ++ nul :: z)) =
        (b ++ protocol ++ [nul]) ++ (number ++ nul :: z) := by simp
    have hlen : b.length + protocol.length + 1 = (b ++ protocol ++ [nul]).length := by
      rw [List.length_append, List.length_append]
      rfl
    have hprotocol : stringAt (b ++ (protocol ++ nul :: (number ++ nul :: z))) b.length = some protocol :=
      stringAt_plain b hplain.1
    have hnumber : stringAt (b ++ (protocol ++ nul :: (number ++ nul :: z))) (b.length + protocol.length + 1) =
        some number := by
      rw [hafter, hlen, stringAt_plain _ hplain.2]
    have hboth : (protocol.length > 0 ∧ number.length > 0) ↔ (protocol ≠ [] ∧ number ≠ []) := by
      rw [gt_iff_lt, gt_iff_lt, List.length_pos_iff, List.length_pos_iff]
    simp only [Option.map_some, Option.bind_eq_bind, hput, Option.bind_some, hprotocol, hnumber, hboth]
    by_cases hok : protocol ≠ [] ∧ number ≠ []
    · rw [if_pos hok, if_pos hok]
      refine ⟨fun h => absurd h (Option.some_ne_none _), ?_⟩
      intro protocol' number' h
      cases h
      obtain ⟨p₁, e₁, R₁, hreq₁, huri₁⟩ := R.setvar varProtocol protocol
      obtain ⟨p₂, e₂, R₂, hreq₂, huri₂⟩ := R₁.setvar varVersion number
      refine ⟨protocol ++ nul :: number, p₂, ?_, ?_, R₂, hreq₂.trans hreq₁, huri₂.trans huri₁⟩
      · rw [e₁, Option.bind_some, e₂, Option.bind_some]
        simp
      · simp
    · rw [if_neg hok, if_neg hok]
      refine ⟨fun _ => rfl, ?_⟩
      intro protocol' number' h
      cases h

end

/-! The whole request. -/

/-- What the first line of a message does to a parser. -/
structure LineEffect where
  accepted : Bool
  reqType : Option RequestType
  uri : Option Bytes
  calls : List StoreCall

/-- All that is set: by the first line, and by the headers when it is accepted. -/
def LineEffect.all (e : LineEffect) (headers : List StoreCall) : List StoreCall :=
  e.calls ++ if e.accepted then headers else []

/-- What follows from the method, the path and the version of a request. -/
def versionEffect (reqType : RequestType) (path version : Bytes) (calls : List StoreCall) : LineEffect :=
  match versionOf version with
  | none => ⟨false, some reqType, some path, calls⟩
  | some (protocol, number) =>
    let calls := calls ++ [.setvar (some varProtocol) (some protocol), .setvar (some varVersion) (some number)]
    match reqTypeText reqType with
    | none => ⟨false, some reqType, some path, calls⟩
    | some text =>
      ⟨true, some reqType, some path,
        calls ++ [.setvar (some varReqType) (some text), .setvar (some varUri) (some path)]⟩

/-- What follows from the words of a first line that has become `x`. -/
def wordsEffect (x : Bytes) (uri version : Option Nat) : LineEffect :=
  let reqType := httppStrToMethod (cString x)
  match uri with
  | none => ⟨false, some reqType, none, []⟩
  | some u =>
    let uri := cString (x.drop u)
    if uri = [] then ⟨false, some reqType, none, []⟩
    else
      match version with
      | none => ⟨false, some reqType, some (uriPath uri), uriCalls uri⟩
      | some v => versionEffect reqType (uriPath uri) (cString (x.drop v)) (uriCalls uri)

/-- The first line of a request. -/
def requestEffect (s : Bytes) : LineEffect :=
  if (lineWords s).length ≥ 3 then ⟨false, none, none, []⟩
  else wordsEffect (cutWords s) (lineWords s)[0]? (lineWords s)[1]?

/-- The variables of the headers. -/
def headersCalls (text : Bytes) : List StoreCall :=
  (headerSegments text).flatMap fun seg => headerCalls (lineText seg)

theorem reqTypeText_isSome (reqType : RequestType) :
    (reqType ≠ .none ∧ reqType ≠ .unknown) ↔ ∃ text, reqTypeText reqType = some text := by
  cases reqType <;> simp [reqTypeText, methodNames]

/-- What comes behind the string of the first line, and where the other lines begin. -/
theorem firstLine_split (text y : Bytes) :
    ∃ w r, (firstSegment text).map blank ++ nul :: y = firstLine text ++ nul :: r ∧ nul :: r = w ++ y ∧
      (firstLine text).length + w.length = (firstSegment text).length + 1 := by
  obtain ⟨w, r, hw, hr⟩ := cString_split ((firstSegment text).map blank) y
  have hlen := congrArg List.length hw
  rw [← lineText, ← firstLine_eq, List.length_map, List.length_append] at hlen
  refine ⟨w ++ [nul], r, ?_, ?_, ?_⟩
  · rw [← hr, firstLine_eq, lineText, ← List.append_assoc, ← hw]
  · rw [← hr]
    simp
  · rw [List.length_append, List.length_singleton]
    omega

theorem firstLine_plain (text : Bytes) : nul ∉ firstLine text := by
  rw [firstLine_eq]
  exact nul_notMem_cString _

/-- A run of a parsing function on the parser `p` has this effect. -/
def HasEffect (run : Option (Int × Parser)) (p : Parser) (m : Maps) (e : LineEffect)
    (headers : List StoreCall) : Prop :=
  ∃ p', run = some (if e.accepted then 1 else 0, p') ∧
    Represents p' ((e.all headers).foldl StoreCall.apply m) ∧
    p'.reqType = e.reqType.getD p.reqType ∧ p'.uri = e.uri.or p.uri

section
variable {p : Parser} {m : Maps} {segs : List Bytes} {line : Lines} {lines : Nat} {y : Bytes}

/-- A run that ends without having accepted. -/
theorem hasEffect_rejected {p' : Parser} {e : LineEffect} (h : e.accepted = false)
    (R : Represents p' (e.calls.foldl StoreCall.apply m)) (hreq : p'.reqType = e.reqType.getD p.reqType)
    (huri : p'.uri = e.uri.or p.uri) (headers : List StoreCall) :
    HasEffect (some (0, p')) p m e headers := by
  refine ⟨p', by rw [h]; rfl, ?_, hreq, huri⟩
  rw [LineEffect.all, h, if_neg Bool.false_ne_true, List.append_nil]
  exact R

/-- The end of `httpp_parse`, on a buffer whose first line was changed in place. -/
theorem takeReqType_spec (R : Represents p m) {x w : Bytes} (hlaid : Laid segs y)
    (hlines : lines - 1 = segs.length)
    (hline : ∀ k < segs.length, line (1 + k) = (starts (x ++ w).length segs)[k]?)
    {path : Bytes} (huri : p.uri = some path) :
    (reqTypeText p.reqType = none → takeReqType p (x ++ (w ++ y)) line lines = some (0, p)) ∧
    ∀ text, reqTypeText p.reqType = some text →
      ∃ p', takeReqType p (x ++ (w ++ y)) line lines = some (1, p') ∧
        Represents p' ((([.setvar (some varReqType) (some text), .setvar (some varUri) (some path)] :
          List StoreCall) ++ segs.flatMap fun seg => headerCalls (lineText seg)).foldl StoreCall.apply m) ∧
        p'.reqType = p.reqType ∧ p'.uri = p.uri := by
  rw [takeReqType]
  constructor
  · intro hnone
    have hno : ¬ (p.reqType ≠ .none ∧ p.reqType ≠ .unknown) := by
      rw [reqTypeText_isSome, hnone]
      exact fun h => h.elim fun _ ht => Option.some_ne_none _ ht.symm
    rw [if_neg hno]
  · intro text htext
    have hyes : p.reqType ≠ .none ∧ p.reqType ≠ .unknown := (reqTypeText_isSome _).mpr ⟨text, htext⟩
    obtain ⟨p₁, e₁, R₁, hreq₁, huri₁⟩ := R.setvar varReqType text
    obtain ⟨p₂, e₂, R₂, hreq₂, huri₂⟩ := R₁.setvar varUri path
    obtain ⟨p₃, e₃, R₃, hreq₃, huri₃⟩ := parseHeaders_spec R₂ (x ++ w) hlaid hline
    have hreq : p₃.reqType = p.reqType := by
      calc p₃.reqType = p₂.reqType := hreq₃
        _ = p₁.reqType := hreq₂
        _ = p.reqType := hreq₁
    have huri' : p₃.uri = p.uri := by
      calc p₃.uri = p₂.uri := huri₃
        _ = p₁.uri := huri₂
        _ = p.uri := huri₁
    refine ⟨p₃, ?_, ?_, hreq, huri'⟩
    · rw [if_pos hyes, htext, e₁, Option.bind_eq_bind, Option.bind_some, huri₁, huri]
      simp only [e₂, Option.bind_some, hlines, ← List.append_assoc, e₃]
    · rw [List.foldl_append]
      exact R₃

/-- `httpp_parse` from its version on. -/
theorem versionEffect_spec {calls : List StoreCall} (R : Represents p (calls.foldl StoreCall.apply m))
    {b version z w : Bytes} (hversion : nul ∉ version) (hz : nul :: z = w ++ y) {pos : Nat}
    (hlaid : Laid segs y) (hlines : lines - 1 = segs.length)
    (hpos : b.length + version.length + w.length = pos)
    (hline : ∀ k < segs.length, line (1 + k) = (starts pos segs)[k]?) {path : Bytes} (huri : p.uri = some path) :
    HasEffect ((takeVersion p (b ++ (version ++ nul :: z)) b.length).bind fun taken =>
        match taken with
        | none => some (0, p)
        | some (data, parser) => takeReqType parser data line lines)
      p m (versionEffect p.reqType path version calls)
      (segs.flatMap fun seg => headerCalls (lineText seg)) := by
  obtain ⟨hnone, hsome⟩ := takeVersion_spec R (b := b) (z := z) hversion
  rw [versionEffect]
  cases hcut : versionOf version with
  | none =>
    rw [bind_of_eq (hnone hcut)]
    exact hasEffect_rejected rfl R rfl huri _
  | some parts =>
    obtain ⟨protocol, number⟩ := parts
    obtain ⟨x, p₁, e₁, hlen, R₁, hreq₁, huri₁⟩ := hsome protocol number hcut
    rw [← List.foldl_append] at R₁
    have hbuffer : b ++ (x ++ nul :: z) = (b ++ x) ++ (w ++ y) := by
      rw [hz]
      simp
    have hline' : ∀ k < segs.length, line (1 + k) = (starts (b ++ x ++ w).length segs)[k]? := by
      intro k hk
      rw [hline k hk, ← hpos, List.length_append, List.length_append, hlen]
    obtain ⟨hnone', hsome'⟩ := takeReqType_spec R₁ hlaid hlines hline' (huri₁.trans huri)
    rw [hreq₁] at hnone' hsome'
    rw [bind_of_eq e₁, hbuffer]
    cases htext : reqTypeText p.reqType with
    | none =>
      have huri' : p₁.uri = some path := huri₁.trans huri
      dsimp only
      rw [hnone' htext]
      exact hasEffect_rejected rfl R₁ hreq₁ huri' _
    | some text =>
      obtain ⟨p₂, e₂, R₂, hreq₂, huri₂⟩ := hsome' text htext
      refine ⟨p₂, e₂, ?_, hreq₂, huri₂.trans (huri₁.trans huri)⟩
      rw [← List.foldl_append, ← List.append_assoc] at R₂
      exact R₂

theorem versionEffect_set (reqType : RequestType) (path version : Bytes) (calls : List StoreCall) :
    (versionEffect reqType path version calls).reqType.isSome = true ∧
      (versionEffect reqType path version calls).uri.isSome = true := by
  rw [versionEffect]
  cases versionOf version with
  | none => exact ⟨rfl, rfl⟩
  | some parts =>
    dsimp only
    cases reqTypeText reqType <;> exact ⟨rfl, rfl⟩

/-- What was in the parser before does not matter to an effect that sets both. -/
theorem HasEffect.of_set {run : Option (Int × Parser)} {p₁ : Parser} {e : LineEffect}
    {headers : List StoreCall} (H : HasEffect run p₁ m e headers)
    (h : e.reqType.isSome = true ∧ e.uri.isSome = true) : HasEffect run p m e headers := by
  obtain ⟨p', hrun, R, hreq, huri⟩ := H
  obtain ⟨reqType, hreqType⟩ := Option.isSome_iff_exists.mp h.1
  obtain ⟨path, hpath⟩ := Option.isSome_iff_exists.mp h.2
  refine ⟨p', hrun, R, ?_, ?_⟩
  · rw [hreq, hreqType]
    rfl
  · rw [huri, hpath]
    rfl

/-- `httpp_parse` behind its loop, on a buffer whose first line has become `x`. -/
theorem wordsEffect_spec (R : Represents p m) {x r w : Bytes} (hr : nul :: r = w ++ y)
    {uri version : Option Nat} (huri : ∀ u, uri = some u → u ≤ x.length)
    (hversion : ∀ u v, uri = some u → version = some v →
      u + (cString (x.drop u)).length ≤ v ∧ v ≤ x.length)
    (hlaid : Laid segs y) (hlines : lines - 1 = segs.length)
    (hline : ∀ k < segs.length, line (1 + k) = (starts (x.length + w.length) segs)[k]?) :
    HasEffect (takeWords p (x ++ nul :: r) line lines 0 uri version) p m (wordsEffect x uri version)
      (segs.flatMap fun seg => headerCalls (lineText seg)) := by
  rw [takeWords, Option.bind_eq_bind, bind_of_eq (stringAt_zero x r)]
  unfold wordsEffect
  generalize httppStrToMethod (cString x) = reqType
  have R₀ : Represents { p with reqType := reqType } m := R.congr rfl fun s => by cases s <;> rfl
  cases uri with
  | none => exact hasEffect_rejected rfl R₀ rfl rfl _
  | some u =>
    have hstring := stringAt_offset x r (huri u rfl)
    dsimp only
    rw [Option.bind_eq_bind, bind_of_eq hstring]
    by_cases hempty : cString (x.drop u) = []
    · rw [if_pos hempty, if_neg (by rw [hempty]; exact Nat.lt_irrefl 0)]
      exact hasEffect_rejected rfl R₀ rfl rfl _
    · rw [if_neg hempty, if_pos (List.length_pos_iff.mpr hempty)]
      -- the buffer as what comes before the URI, the URI and what comes behind it
      obtain ⟨w₁, z₁, hx, hz₁⟩ := stringAt_split x r u
      have hbuffer : x ++ nul :: r = x.take u ++ (cString (x.drop u) ++ nul :: z₁) := by
        rw [← hz₁]
        conv_lhs => rw [hx]
        simp
      have hlen : (x.take u).length = u := List.length_take_of_le (huri u rfl)
      obtain ⟨x₁, p₁, e₁, hlen₁, R₁, hreq₁, huri₁⟩ := takeUri_spec R₀ (a := x.take u) (z := z₁)
        (nul_notMem_cString (x.drop u))
      rw [← hbuffer, hlen] at e₁
      rw [Option.bind_eq_bind, bind_of_eq e₁]
      cases version with
      | none => exact hasEffect_rejected rfl R₁ hreq₁ huri₁ _
      | some v =>
        obtain ⟨hapart, hv⟩ := hversion u v rfl rfl
        obtain ⟨j, rfl⟩ := Nat.exists_eq_add_of_le hapart
        generalize cString (x.drop u) = uri at *
        generalize x.take u = a at *
        subst hx hlen
        have hoffset : a.length + uri.length + j = (a ++ uri).length + j := by rw [List.length_append]
        have hdrop : (a ++ (uri ++ w₁)).drop (a.length + uri.length + j) = w₁.drop j := by
          rw [hoffset, ← List.append_assoc, ← List.drop_drop, List.drop_left]
        -- behind the URI nothing has changed: the version, and what comes behind it
        obtain ⟨w₂, z₂, hw₂, hz₂⟩ := stringAt_split w₁ r j
        have hj : j ≤ w₁.length := by
          simp only [List.length_append] at hv
          omega
        have hbuffer₁ : a ++ (x₁ ++ nul :: z₁) =
            (a ++ x₁ ++ w₁.take j) ++ (cString (w₁.drop j) ++ nul :: z₂) := by
          rw [← hz₁, ← hz₂]
          conv_lhs => rw [hw₂]
          simp
        have hstart : (a ++ x₁ ++ w₁.take j).length = a.length + uri.length + j := by
          rw [List.length_append, List.length_append, List.length_take_of_le hj, hlen₁]
        have hz : nul :: z₂ = (w₂ ++ w) ++ y := by
          rw [← hz₂, hr, List.append_assoc]
        have hpos : (a ++ x₁ ++ w₁.take j).length + (cString (w₁.drop j)).length + (w₂ ++ w).length =
            (a ++ (uri ++ w₁)).length + w.length := by
          have hlen₂ := congrArg List.length hw₂
          rw [List.length_append, List.length_append, List.length_take_of_le hj] at hlen₂
          simp only [List.length_append, hstart] at hlen₂ ⊢
          omega
        have H := versionEffect_spec R₁ (nul_notMem_cString (w₁.drop j)) hz hlaid hlines hpos hline huri₁
        rw [hstart, ← hbuffer₁, hreq₁] at H
        dsimp only
        rw [hdrop]
        exact H.of_set (versionEffect_set reqType (uriPath uri) (cString (w₁.drop j)) (uriCalls uri))

/-- `httpp_parse` on any bytes. -/
theorem httppParse_spec (R : Represents p m) (text : Bytes) :
    HasEffect (httppParse p (some text)) p m (requestEffect (firstLine text)) (headersCalls text) := by
  obtain ⟨line, y, esplit, hfirst, hlaid, hline⟩ := splitHeaders_spec text
  obtain ⟨w, r, hbuffer, hr, hlen⟩ := firstLine_split text y
  have hcount : (splitLines maxHeaders text).length - 1 = (headerSegments text).length := by
    rw [headerSegments, List.length_tail]
  have hscan := scanRequest_spec (firstLine_plain text) r
  rw [hbuffer] at esplit
  rw [httppParse, Option.bind_eq_bind, bind_of_eq esplit]
  dsimp only
  rw [Option.bind_eq_bind, bind_of_eq hfirst, Option.bind_eq_bind, bind_of_eq hscan, requestEffect]
  by_cases hmany : (lineWords (firstLine text)).length ≥ 3
  · rw [if_pos hmany, if_pos hmany]
    exact hasEffect_rejected rfl R rfl rfl _
  · rw [if_neg hmany, if_neg hmany]
    refine wordsEffect_spec R hr (fun u => lineWords_le) (fun u v => lineWords_apart) hlaid hcount ?_
    rw [cutWords_length, hlen]
    exact hline

end

end IcecastCommon.Httpp
