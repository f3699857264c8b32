import SrcControl.Repo.HttpUrl
import SrcControl.Lib.LossyText
import SrcControl.Lib.TrimText
import SrcControl.Lib.SlashPath

/-!
# The opening of an HTTP session

What a client writes before the wire protocol starts and how a server reads it: the request line
with the path, the headers with the bearer token, and a blank line, within a bound on the bytes.
-/

namespace SrcControl.HttpOpening

open HttpUrl LineText

abbrev Bytes := List UInt8

def MAX_OPENING_BYTES : Nat := 8192

/-- Two line ends in a row. -/
def terminator : Bytes := [13, 10, 13, 10]

def tooLong : Error :=
  .invalidArgument
    s!"HTTP opening exceeded {MAX_OPENING_BYTES} bytes without a terminating blank line"

/-- One byte at a time. The input is what the peer sends before it closes the connection. -/
def readBoundedFrom (buf : Bytes) : Bytes → Except Error (Bytes × Bytes)
  | [] =>
    if MAX_OPENING_BYTES ≤ buf.length then .error tooLong
    else .error (.invalidArgument "HTTP opening ended before a terminating blank line")
  | b :: input =>
    if MAX_OPENING_BYTES ≤ buf.length then .error tooLong
    else if terminator <:+ buf ++ [b] then .ok (buf ++ [b], input)
    else readBoundedFrom (buf ++ [b]) input

def readBoundedOpening (input : Bytes) : Except Error (Bytes × Bytes) := readBoundedFrom [] input

structure ClientOpening where
  target : List Char
  bearer : Option (List Char)
deriving DecidableEq

def crlf : List Char := ['\r', '\n']

def authorizationHeader (bearer : Option (List Char)) : List Char :=
  match bearer with
  | some tok => "Authorization: Bearer ".toList ++ tok ++ crlf
  | none => []

def writeClientOpening (host path : List Char) (bearer : Option (List Char)) : Bytes :=
  LossyText.encode ("POST ".toList ++ path ++ " HTTP/1.1".toList ++ crlf ++ "Host: ".toList ++ host ++
    crlf ++ "User-Agent: sc/2".toList ++ crlf ++ authorizationHeader bearer ++ crlf)

/-- `text.split("\r\n")`. -/
def splitCrlf : List Char → List (List Char)
  | [] => [[]]
  | '\r' :: '\n' :: rest => [] :: splitCrlf rest
  | c :: rest => (splitCrlf rest).modifyHead (c :: ·)

/-- The token of an authorization header. -/
def bearerOf (value : List Char) : Option (List Char) :=
  (stripPrefix "Bearer ".toList (trimWs value) <|>
    stripPrefix "bearer ".toList (trimWs value)).map trimWs

def readHeader (bearer : Option (List Char)) (line : List Char) : Option (List Char) :=
  match splitOnce ':' line with
  | some (name, value) =>
    if eqIgnoreAsciiCase (trimWs name) "authorization".toList then (bearerOf value).or bearer
    else bearer
  | none => bearer

def badRequest (what : String) (line : List Char) : Error :=
  let text := String.ofList line
  .invalidArgument s!"bad HTTP request line{what}: {text}"

def readRequestLine (line : List Char) : Except Error (List Char) :=
  match line.splitOn ' ' with
  | method :: target :: version :: _ =>
    if method = [] ∨ target = [] then .error (badRequest "" line)
    else if "HTTP/".toList.isPrefixOf version then .ok target
    else .error (badRequest " (missing HTTP/ version)" line)
  | _ => .error (badRequest "" line)

/-- The opening, and the bytes behind it. -/
def readClientOpening (input : Bytes) : Except Error (ClientOpening × Bytes) := do
  let (buf, rest) ← readBoundedOpening input
  match splitCrlf (LossyText.decode buf) with
  | [] => .error (.invalidArgument "empty HTTP request line")
  | requestLine :: lines =>
    let target ← readRequestLine requestLine
    pure (⟨target, lines.foldl readHeader none⟩, rest)

/-- The check before a connection is opened. -/
def checkToken (token : Option (List Char)) : Except Error Unit :=
  match token with
  | some t =>
    if hasLineBreak t then .error (.invalidArgument "SC_HTTP_TOKEN must not contain CR or LF")
    else .ok ()
  | none => .ok ()

/-! ## Lines -/

/-- Lines, each ended, and an empty one behind them. -/
def joinLines (lines : List (List Char)) : List Char := lines.flatMap (· ++ crlf) ++ crlf

/-- A line of an opening: it is not empty and breaks no line. -/
def IsLine (l : List Char) : Prop := l ≠ [] ∧ '\r' ∉ l ∧ '\n' ∉ l

theorem splitCrlf_line {l : List Char} (rest : List Char) (h : '\r' ∉ l) :
    splitCrlf (l ++ '\r' :: '\n' :: rest) = l :: splitCrlf rest := by
  induction l with
  | nil => rfl
  | cons c l ih =>
    have hc : c ≠ '\r' := fun he => h (he ▸ List.mem_cons_self)
    have ih := ih fun hm => h (List.mem_cons_of_mem c hm)
    rw [List.cons_append, splitCrlf.eq_3 _ _ (by intro _ he; exact absurd he hc), ih]
    rfl

theorem splitCrlf_joinLines {lines : List (List Char)} (h : ∀ l ∈ lines, IsLine l) :
    splitCrlf (joinLines lines) = lines ++ [[], []] := by
  induction lines with
  | nil => rfl
  | cons l lines ih =>
    have ih := ih fun x hx => h x (List.mem_cons_of_mem l hx)
    have hl := (h l List.mem_cons_self).2.1
    have hjoin : joinLines (l :: lines) = l ++ '\r' :: '\n' :: joinLines lines := by
      simp [joinLines, crlf]
    rw [hjoin, splitCrlf_line _ hl, ih]
    rfl

/-! ## The end of the opening -/

theorem encode_joinLines_cons (l : List Char) (lines : List (List Char)) :
    LossyText.encode (joinLines (l :: lines)) =
      LossyText.encode l ++ 13 :: 10 :: LossyText.encode (joinLines lines) := by
  have hjoin : joinLines (l :: lines) = l ++ '\r' :: '\n' :: joinLines lines := by
    simp [joinLines, crlf]
  rw [hjoin, LossyText.encode_append]
  rfl

theorem IsLine.bytes {l : List Char} (h : IsLine l) :
    (13 : UInt8) ∉ LossyText.encode l ∧ LossyText.encode l ≠ [] := by
  refine ⟨LossyText.not_mem_encode (c := '\r') (by decide) h.2.1, fun hnil => h.1 ?_⟩
  have := LossyText.length_le_encode l
  rw [hnil] at this
  exact List.eq_nil_of_length_eq_zero (Nat.le_zero.mp this)

/-- Two line ends in a row stand right behind the first line or further on. -/
theorem terminator_cases {p x y : Bytes} (hx : 13 ∉ x) (h : p ++ terminator <+: x ++ 13 :: 10 :: y) :
    (p = x ∧ [13, 10] <+: y) ∨ ∃ p', p = x ++ 13 :: 10 :: p' ∧ p' ++ terminator <+: y := by
  obtain ⟨t, ht⟩ := h
  rw [List.append_assoc] at ht
  rcases List.append_eq_append_iff.mp ht with ⟨a, rfl, ha⟩ | ⟨c, rfl, hc⟩
  · cases a with
    | nil =>
      simp only [terminator, List.cons_append, List.nil_append, List.cons.injEq, true_and] at ha
      exact .inl ⟨by simp, t, ha⟩
    | cons b a =>
      simp only [terminator, List.cons_append, List.cons.injEq] at ha
      exact absurd (by simp [← ha.1]) hx
  · match c with
    | [] =>
      simp only [terminator, List.cons_append, List.nil_append, List.cons.injEq, true_and] at hc
      exact .inl ⟨by simp, t, hc.symm⟩
    | [b] =>
      simp only [terminator, List.cons_append, List.nil_append, List.cons.injEq] at hc
      exact absurd hc.2.1 (by decide)
    | b :: b' :: c =>
      simp only [List.cons_append, List.cons.injEq] at hc
      obtain ⟨rfl, rfl, hy⟩ := hc
      exact .inr ⟨c, rfl, t, by rw [hy, List.append_assoc]⟩

/-- No two line ends in a row stand before the end. -/
theorem terminator_prefix {lines : List (List Char)} (h : ∀ l ∈ lines, IsLine l) {p : Bytes}
    (hp : p ++ terminator <+: LossyText.encode (joinLines lines)) :
    p ++ terminator = LossyText.encode (joinLines lines) := by
  induction lines generalizing p with
  | nil =>
    have := hp.length_le
    simp [joinLines, crlf, terminator, String.utf8EncodeChar] at this
  | cons l lines ih =>
    have hl := (h l List.mem_cons_self).bytes.1
    rw [encode_joinLines_cons] at hp ⊢
    rcases terminator_cases hl hp with ⟨rfl, hy⟩ | ⟨p', rfl, hp'⟩
    · cases lines with
      | nil => rfl
      | cons l' lines =>
        have hl' := (h l' (by simp)).bytes
        rw [encode_joinLines_cons] at hy
        obtain ⟨b, bs, hbs⟩ := List.exists_cons_of_ne_nil hl'.2
        rw [hbs, List.cons_append, List.cons_prefix_cons] at hy
        exact absurd (by rw [hbs, ← hy.1]; simp) hl'.1
    · rw [← ih (fun x hx => h x (List.mem_cons_of_mem l hx)) hp']
      simp

theorem readBoundedFrom_reads {whole buf rest : Bytes} (further : Bytes) (hw : whole = buf ++ rest)
    (hlen : whole.length ≤ MAX_OPENING_BYTES) (hend : terminator <:+ whole) (hne : rest ≠ [])
    (hfirst : ∀ p, p ++ terminator <+: whole → p ++ terminator = whole) :
    readBoundedFrom buf (rest ++ further) = .ok (whole, further) := by
  induction rest generalizing buf with
  | nil => exact absurd rfl hne
  | cons b rest ih =>
    have hbuf : ¬ MAX_OPENING_BYTES ≤ buf.length := by
      rw [hw, List.length_append, List.length_cons] at hlen
      omega
    have hw' : whole = buf ++ [b] ++ rest := by simp [hw]
    rw [List.cons_append, readBoundedFrom, if_neg hbuf]
    by_cases hrest : rest = []
    · subst hrest
      rw [List.append_nil] at hw'
      rw [← hw', if_pos hend]
      rfl
    · rw [if_neg, ih hw' hrest]
      rintro ⟨p, hp⟩
      have hwhole := hfirst p (by rw [hp, hw']; exact List.prefix_append _ _)
      rw [hp, hw'] at hwhole
      exact hrest (List.append_right_eq_self.mp hwhole.symm)

/-- An opening within the bound is read whole, and nothing behind it. -/
theorem readBoundedOpening_reads {lines : List (List Char)} (h : ∀ l ∈ lines, IsLine l)
    (hne : lines ≠ []) (hlen : (LossyText.encode (joinLines lines)).length ≤ MAX_OPENING_BYTES)
    (further : Bytes) :
    readBoundedOpening (LossyText.encode (joinLines lines) ++ further) =
      .ok (LossyText.encode (joinLines lines), further) := by
  have hend : terminator <:+ LossyText.encode (joinLines lines) := by
    obtain ⟨ls, l, rfl⟩ := List.eq_nil_or_concat lines |>.resolve_left hne
    refine ⟨LossyText.encode (ls.flatMap (· ++ crlf) ++ l), ?_⟩
    have hterm : terminator = LossyText.encode (crlf ++ crlf) := by decide
    rw [hterm, ← LossyText.encode_append]
    simp [joinLines]
  have hwhole : LossyText.encode (joinLines lines) ≠ [] := by
    obtain ⟨l, ls, rfl⟩ := List.exists_cons_of_ne_nil hne
    rw [encode_joinLines_cons]
    simp
  exact readBoundedFrom_reads further rfl hlen hend hwhole fun p hp => terminator_prefix h hp

/-! ## Request line and headers -/

def requestLine (path : List Char) : List Char := "POST ".toList ++ path ++ " HTTP/1.1".toList

def openingLines (host path : List Char) (bearer : Option (List Char)) : List (List Char) :=
  [requestLine path, "Host: ".toList ++ host, "User-Agent: sc/2".toList] ++
    bearer.toList.map ("Authorization: Bearer ".toList ++ ·)

theorem writeClientOpening_eq (host path : List Char) (bearer : Option (List Char)) :
    writeClientOpening host path bearer =
      LossyText.encode (joinLines (openingLines host path bearer)) := by
  unfold writeClientOpening openingLines joinLines requestLine authorizationHeader
  cases bearer <;> simp

theorem openingLines_isLine {host path : List Char} {bearer : Option (List Char)}
    (hh : '\r' ∉ host ∧ '\n' ∉ host) (hp : '\r' ∉ path ∧ '\n' ∉ path)
    (hb : ∀ t ∈ bearer, '\r' ∉ t ∧ '\n' ∉ t) : ∀ l ∈ openingLines host path bearer, IsLine l := by
  intro l hl
  simp only [openingLines, List.mem_append, List.mem_cons, List.not_mem_nil, or_false,
    List.mem_map, Option.mem_toList] at hl
  rcases hl with (rfl | rfl | rfl) | ⟨t, ht, rfl⟩
  · simp [IsLine, requestLine, hp.1, hp.2]
  · simp [IsLine, hh.1, hh.2]
  · simp [IsLine]
  · simp [IsLine, (hb t ht).1, (hb t ht).2]

/-- The path is the target exactly when no space cuts it. -/
theorem readRequestLine_iff {path : List Char} (h : ∃ tail, path = '/' :: tail) :
    readRequestLine (requestLine path) = .ok path ↔ ' ' ∉ path := by
  have hsplit : (requestLine path).splitOn ' ' =
      "POST".toList :: (path ++ ' ' :: "HTTP/1.1".toList).splitOn ' ' := by
    have : requestLine path = "POST".toList ++ ' ' :: (path ++ ' ' :: "HTTP/1.1".toList) := by
      simp [requestLine]
    rw [this, List.splitOn_append_cons_self_of_not_mem (by decide)]
  constructor
  · intro hread
    unfold readRequestLine at hread
    rw [hsplit] at hread
    cases hs : (path ++ ' ' :: "HTTP/1.1".toList).splitOn ' ' with
    | nil => exact absurd hs (List.splitOn_ne_nil _ _)
    | cons target rest =>
      have htarget : ' ' ∉ target := SlashPath.not_mem_splitOn (by rw [hs]; simp)
      rw [hs] at hread
      cases rest with
      | nil => cases hread
      | cons version more =>
        dsimp only at hread
        split_ifs at hread
        cases hread
        exact htarget
  · intro hspace
    obtain ⟨tail, rfl⟩ := h
    unfold readRequestLine
    have hversion : "HTTP/1.1".toList.splitOn ' ' = ["HTTP/1.1".toList] := by decide
    rw [hsplit, List.splitOn_append_cons_self_of_not_mem hspace, hversion]
    rfl

/-- The token comes back exactly when trimming leaves it alone and something of it. -/
theorem bearerOf_iff (tok : List Char) :
    bearerOf (" Bearer ".toList ++ tok) = some tok ↔ tok ≠ [] ∧ trimWs tok = tok := by
  have htrim : trimWs (" Bearer ".toList ++ tok) =
      ("Bearer ".toList ++ tok).rdropWhile Refs.isWhitespace := by
    change LineText.trim _ (' ' :: 'B' :: _) = _
    rw [LineText.trim, List.dropWhile_cons_of_pos (by decide),
      List.dropWhile_cons_of_neg (by decide)]
    rfl
  unfold bearerOf
  rw [htrim]
  by_cases hnil : tok.rdropWhile Refs.isWhitespace = []
  · have hall := List.rdropWhile_eq_nil_iff.mp hnil
    have hword : ("Bearer ".toList ++ tok).rdropWhile Refs.isWhitespace = "Bearer".toList := by
      rw [TrimText.rdropWhile_append_all _ hall]
      decide
    have hempty : trimWs tok = [] := by
      rw [trimWs, LineText.trim, TrimText.dropWhile_eq_nil_of_all hall]
      rfl
    rw [hword, hempty]
    constructor
    · intro h
      exact absurd h (by simp [stripPrefix])
    · rintro ⟨hne, heq⟩
      exact absurd heq.symm hne
  · rw [TrimText.rdropWhile_append_ne _ hnil, stripPrefix_append]
    change some (trimWs _) = some tok ↔ _
    rw [Option.some.injEq, trimWs, TrimText.trim_rdropWhile]
    refine ⟨fun h => ⟨?_, h⟩, fun h => h.2⟩
    rintro rfl
    exact hnil rfl

theorem readHeader_host (bearer : Option (List Char)) (host : List Char) :
    readHeader bearer ("Host: ".toList ++ host) = bearer := by
  have hsplit : splitOnce ':' ("Host: ".toList ++ host) = some ("Host".toList, ' ' :: host) :=
    splitOnce_append (a := "Host".toList) (' ' :: host) (by decide)
  rw [readHeader, hsplit]
  rfl

theorem readHeader_authorization (tok : List Char) :
    readHeader none ("Authorization: Bearer ".toList ++ tok) =
      bearerOf (" Bearer ".toList ++ tok) := by
  have hsplit : splitOnce ':' ("Authorization: Bearer ".toList ++ tok) =
      some ("Authorization".toList, " Bearer ".toList ++ tok) :=
    splitOnce_append (a := "Authorization".toList) (" Bearer ".toList ++ tok) (by decide)
  have hname : eqIgnoreAsciiCase (trimWs "Authorization".toList) "authorization".toList = true := by
    decide
  rw [readHeader, hsplit]
  dsimp only
  rw [if_pos hname, Option.or_none]

theorem readHeaders_openingLines (host : List Char) (bearer : Option (List Char)) :
    (["Host: ".toList ++ host, "User-Agent: sc/2".toList] ++
        bearer.toList.map ("Authorization: Bearer ".toList ++ ·) ++ [[], []]).foldl readHeader none =
      bearer.bind fun tok => bearerOf (" Bearer ".toList ++ tok) := by
  have hagent : readHeader none "User-Agent: sc/2".toList = none := by decide
  have hempty : ∀ b, readHeader b [] = b := fun _ => rfl
  cases bearer with
  | none => simp only [Option.toList_none, List.map_nil, List.append_nil, List.cons_append,
      List.nil_append, List.foldl_cons, List.foldl_nil, readHeader_host, hagent, hempty,
      Option.bind_none]
  | some tok =>
    simp only [Option.toList_some, List.map_cons, List.map_nil, List.cons_append, List.nil_append,
      List.foldl_cons, List.foldl_nil, readHeader_host, hagent, hempty, readHeader_authorization,
      Option.bind_some]

theorem bearer_iff (token : Option (List Char)) :
    token.bind (fun tok => bearerOf (" Bearer ".toList ++ tok)) = token ↔
      ∀ t ∈ token, t ≠ [] ∧ trimWs t = t := by
  cases token with
  | none => exact iff_of_true rfl fun t ht => by cases ht
  | some tok =>
    rw [Option.bind_some, bearerOf_iff]
    exact ⟨fun h t ht => by cases ht; exact h, fun h => h tok rfl⟩

/-- The opening comes back exactly when no space cuts the path, and when a token was sent that
something is left of it and trimming changes nothing. -/
theorem opening_exact_iff {url : List Char} {u : ScHttpUrl} {token : Option (List Char)}
    (hu : ScHttpUrl.parse url = .ok u) (ht : checkToken token = .ok ())
    (hlen : (writeClientOpening (bracketHost u.host) u.path token).length ≤ MAX_OPENING_BYTES)
    (further : Bytes) :
    readClientOpening (writeClientOpening (bracketHost u.host) u.path token ++ further) =
        .ok (⟨u.path, token⟩, further) ↔
      ' ' ∉ u.path ∧ ∀ t ∈ token, t ≠ [] ∧ trimWs t = t := by
  obtain ⟨authority, hparsed⟩ := parsed hu
  have hhost : '\r' ∉ bracketHost u.host ∧ '\n' ∉ bracketHost u.host := by
    unfold bracketHost
    split_ifs <;> simp [hparsed.host_line]
  have htoken : ∀ t ∈ token, '\r' ∉ t ∧ '\n' ∉ t := by
    rintro t rfl
    unfold checkToken at ht
    dsimp only at ht
    split_ifs at ht with hbreak
    exact not_mem_of_not_hasLineBreak (Bool.not_eq_true _ ▸ hbreak)
  have hlines := openingLines_isLine hhost hparsed.path_line htoken
  rw [writeClientOpening_eq] at hlen ⊢
  unfold readClientOpening
  rw [readBoundedOpening_reads hlines (by simp [openingLines]) hlen]
  simp only [bind, Except.bind, LossyText.decode_utf8, splitCrlf_joinLines hlines]
  have hcons : openingLines (bracketHost u.host) u.path token ++ [[], []] =
      requestLine u.path :: (["Host: ".toList ++ bracketHost u.host, "User-Agent: sc/2".toList] ++
        token.toList.map ("Authorization: Bearer ".toList ++ ·) ++ [[], []]) := rfl
  rw [hcons]
  dsimp only
  rw [readHeaders_openingLines, ← readRequestLine_iff hparsed.path_slash, ← bearer_iff]
  cases readRequestLine (requestLine u.path) with
  | error e => exact iff_of_false (fun h => by cases h) (fun h => by cases h.1)
  | ok target =>
    change Except.ok (_, _) = Except.ok (_, _) ↔ _
    simp only [Except.ok.injEq, Prod.mk.injEq, ClientOpening.mk.injEq, and_true]

theorem opening_exact_iff_repo :
    readClientOpening (writeClientOpening (bracketHost "h".toList) "/repo".toList
        (some "abc".toList) ++ [1, 2, 3]) =
        .ok (⟨"/repo".toList, some "abc".toList⟩, [1, 2, 3]) ↔
      ' ' ∉ "/repo".toList ∧ ∀ t ∈ some "abc".toList, t ≠ [] ∧ trimWs t = t :=
  @opening_exact_iff "sc+http://h/repo".toList ⟨"h".toList, 8730, "/repo".toList, false⟩ _
    (by decide) (by decide) (by decide) [1, 2, 3]

/-- A space in the path cuts the target short, and what follows it is read as the version. -/
theorem spaced_path_refused :
    ScHttpUrl.parse "sc+http://h/my repo".toList = .ok ⟨"h".toList, 8730, "/my repo".toList, false⟩ ∧
    (writeClientOpening (bracketHost "h".toList) "/my repo".toList none).length ≤
      MAX_OPENING_BYTES ∧
    readClientOpening (writeClientOpening (bracketHost "h".toList) "/my repo".toList none) =
      .error (badRequest " (missing HTTP/ version)" "POST /my repo HTTP/1.1".toList) := by
  refine ⟨by decide, by decide, by decide +kernel⟩

end SrcControl.HttpOpening
