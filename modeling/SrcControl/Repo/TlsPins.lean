import SrcControl.Repo.HttpUrl
import SrcControl.Lib.TrimText
import SrcControl.Lib.WholeLines
import SrcControl.Lib.DecimalText

/-!
# The pin file

The user-editable list of TLS pins: how a line is read, the lookup, and its three writers. A record
appends a line without regard to how the file ends, and takes any host that a URL can name.
-/

namespace SrcControl.TlsPins

open HttpUrl LineText

/-! ## Lines -/

/-- The SHA-256 of a server's public key. -/
abbrev Pin := { bytes : List UInt8 // bytes.length = 32 }

structure PinEntry where
  host : List Char
  port : Nat
  pin : Pin
deriving DecidableEq

/-- `sha256:<lowercase hex>`. -/
def fingerprint (pin : Pin) : List Char := "sha256:".toList ++ encodeHex pin.val

def parseFingerprint (s : List Char) : Except Error Pin :=
  let text := String.ofList s
  match decodeHex ((stripPrefix "sha256:".toList s).getD s) with
  | none => .error (.invalidArgument s!"bad fingerprint (want sha256:<hex>): {text}")
  | some bytes =>
    if h : bytes.length = 32 then .ok ⟨bytes, h⟩
    else .error (.invalidArgument s!"fingerprint must be 32 bytes: {text}")

/-- One non-comment line as a pin entry, if it is a well-formed one. -/
def parseLine (line : List Char) : Option PinEntry :=
  let line := trimWs line
  if line = [] ∨ line.head? = some '#' then none
  else do
    let (key, value) ← splitOnce ' ' line
    let (host, port) ← splitAuthority key
    let port ← port.bind (parseUnsigned (2 ^ 16))
    let pin ← (parseFingerprint (trimWs value)).toOption
    pure ⟨host, port, pin⟩

/-- Hostnames compare without case, ports exactly. -/
def PinEntry.isFor (e : PinEntry) (host : List Char) (port : Nat) : Bool :=
  e.port == port && eqIgnoreAsciiCase e.host host

/-! ## The file -/

/-- The text of a missing file is empty. -/
def lookup (text host : List Char) (port : Nat) : Option Pin :=
  (((lines text).filterMap parseLine).find? fun e => e.isFor host port).map (·.pin)

/-- The line that a writer adds, without its end. -/
def pinLine (host : List Char) (port : Nat) (pin : Pin) : List Char :=
  hostPort host port ++ ' ' :: fingerprint pin

def record (text host : List Char) (port : Nat) (pin : Pin) : List Char :=
  text ++ pinLine host port pin ++ ['\n']

/-- The text without the pins of a host and port, and how many there were. -/
def withoutPins (text host : List Char) (port : Nat) : List Char × Nat :=
  (rawLines text).foldl (fun (kept, removed) line =>
    match parseLine line with
    | some e => if e.isFor host port then (kept, removed + 1) else (kept ++ line, removed)
    | none => (kept ++ line, removed)) ([], 0)

/-- The new text and the number of pins removed; without any the file is not written. -/
def forget (text host : List Char) (port : Nat) : List Char × Nat :=
  let (kept, removed) := withoutPins text host port
  if 0 < removed then (kept, removed) else (text, removed)

/-- The new text and whether a pin was replaced. -/
def setPin (text host : List Char) (port : Nat) (pin : Pin) : List Char × Bool :=
  let (kept, removed) := withoutPins text host port
  let kept := if kept ≠ [] ∧ kept.getLast? ≠ some '\n' then kept ++ ['\n'] else kept
  (kept ++ (pinLine host port pin ++ ['\n']), decide (0 < removed))

/-! ## Reading a line back -/

theorem parseFingerprint_fingerprint (pin : Pin) : parseFingerprint (fingerprint pin) = .ok pin := by
  unfold parseFingerprint fingerprint
  rw [stripPrefix_append]
  dsimp only [Option.getD_some]
  rw [decodeHex_encodeHex]
  exact dif_pos pin.property

/-- No text with a space in it is a fingerprint. -/
theorem decodeHex_space {s : List Char} (h : ' ' ∈ s) : decodeHex s = none := by
  induction s using decodeHex.induct with
  | case1 => cases h
  | case2 => rfl
  | case3 hi lo cs ih =>
    have hspace : hexValue ' ' = none := by decide
    rw [decodeHex]
    rcases List.mem_cons.mp h with rfl | h
    · rw [hspace]
      rfl
    · rcases List.mem_cons.mp h with rfl | h
      · rw [hspace]
        cases hexValue hi <;> rfl
      · rw [ih h]
        cases hexValue hi <;> cases hexValue lo <;> rfl

theorem parseFingerprint_space {s : List Char} (h : ' ' ∈ s) :
    (parseFingerprint s).toOption = none := by
  have hrest : ' ' ∈ (stripPrefix "sha256:".toList s).getD s := by
    cases hs : stripPrefix "sha256:".toList s with
    | none => exact h
    | some rest =>
      rw [stripPrefix_eq_some hs] at h
      simpa using h
  unfold parseFingerprint
  dsimp only
  rw [decodeHex_space hrest]
  rfl

theorem fingerprint_chars {pin : Pin} {c : Char} (h : c ∈ fingerprint pin) :
    Refs.isWhitespace c = false := by
  have hprefix : ∀ c ∈ "sha256:".toList, Refs.isWhitespace c = false := by
    simp [Refs.isWhitespace]
  have hhex : ∀ c ∈ hexChars, Refs.isWhitespace c = false := by
    simp [hexChars, Refs.isWhitespace]
  rcases List.mem_append.mp h with h | h
  · exact hprefix c h
  · exact hhex c (mem_encodeHex h)

theorem fingerprint_ne_nil (pin : Pin) : fingerprint pin ≠ [] :=
  List.append_ne_nil_of_left_ne_nil (by decide) _

theorem space_not_mem_fingerprint (pin : Pin) : ' ' ∉ fingerprint pin :=
  fun h => absurd (fingerprint_chars h) (by decide +kernel)

/-- Only the text between the ends of a line counts. -/
theorem parseLine_congr {a b : List Char} (h : trimWs a = trimWs b) : parseLine a = parseLine b := by
  unfold parseLine
  rw [h]

theorem parseLine_pad {s e : List Char} (he : ∀ c ∈ e, Refs.isWhitespace c = true) :
    parseLine (s ++ e) = parseLine s :=
  parseLine_congr (TrimText.trim_pad (a := []) (by simp) s he)

theorem parseLine_lineBody (raw : List Char) : parseLine (lineBody raw) = parseLine raw := by
  unfold lineBody
  split_ifs with hlast
  · obtain ⟨l, rfl⟩ := List.getLast?_eq_some_iff.mp hlast
    rw [List.dropLast_concat]
    unfold stripLast
    split_ifs with hcr
    · obtain ⟨l, rfl⟩ := List.getLast?_eq_some_iff.mp hcr
      rw [List.dropLast_concat, List.append_assoc]
      exact (parseLine_pad (by simp [Refs.isWhitespace])).symm
    · exact (parseLine_pad (by simp [Refs.isWhitespace])).symm
  · rfl

/-- A key and a fingerprint, trimmed: only the start of the key can lose something. -/
theorem trim_keyed (y : List Char) (port : Nat) (pin : Pin) :
    trimWs (y ++ ':' :: (showNat port ++ ' ' :: fingerprint pin)) =
      y.dropWhile Refs.isWhitespace ++ ':' :: (showNat port ++ ' ' :: fingerprint pin) := by
  have hdrop : (y ++ ':' :: (showNat port ++ ' ' :: fingerprint pin)).dropWhile Refs.isWhitespace =
      y.dropWhile Refs.isWhitespace ++ ':' :: (showNat port ++ ' ' :: fingerprint pin) := by
    rw [List.dropWhile_append]
    split_ifs with hnil
    · rw [List.isEmpty_iff.mp hnil]
      rfl
    · rfl
  have hfp : (fingerprint pin).rdropWhile Refs.isWhitespace = fingerprint pin := by
    rw [List.rdropWhile_eq_self_iff]
    intro hne
    rw [fingerprint_chars (List.getLast_mem hne)]
    decide
  have hsplit : ∀ s : List Char, s ++ ':' :: (showNat port ++ ' ' :: fingerprint pin) =
      (s ++ ':' :: (showNat port ++ [' '])) ++ fingerprint pin := by simp
  rw [trimWs, trim, hdrop, hsplit, TrimText.rdropWhile_append_ne _ (by
    rw [hfp]
    exact fingerprint_ne_nil pin), hfp]

theorem splitAuthority_cases {t h p : List Char} (hs : splitAuthority t = some (h, some p)) :
    (t = h ++ ':' :: p ∧ ':' ∉ h ∧ t.head? ≠ some '[') ∨
      ∃ x a, t = '[' :: x ++ ']' :: ':' :: p ∧ Ipv6.parse x = some a ∧ h = Ipv6.display a := by
  unfold splitAuthority at hs
  split at hs
  · next rest =>
    simp only [bind, Option.bind_eq_some_iff] at hs
    obtain ⟨⟨x, tail⟩, hsplit, a, ha, htail⟩ := hs
    split at htail
    · cases htail
    · next port htl =>
      cases htail
      change tail = _ at htl
      refine .inr ⟨x, a, ?_, ha, rfl⟩
      rw [(splitOnce_eq_some hsplit).1, htl]
      rfl
    · cases htail
  · next hbracket =>
    split at hs
    · next h' p' hsplit =>
      cases hs
      obtain ⟨ht, hcolon⟩ := splitOnce_eq_some hsplit
      refine .inl ⟨ht, hcolon, fun hhead => ?_⟩
      obtain ⟨rest, hrest⟩ := List.head?_eq_some_iff.mp hhead
      exact hbracket rest hrest
    · cases hs

theorem showNat_chars {n : Nat} {c : Char} (hc : c = ':' ∨ c = ' ') : c ∉ showNat n := by
  intro h
  have := showNat_isDigit h
  rcases hc with rfl | rfl <;> revert this <;> decide

/-- The key of a line as it is read: spaces before it are gone. -/
def keyText (y : List Char) (port : Nat) : List Char :=
  y.dropWhile Refs.isWhitespace ++ ':' :: showNat port

/-- A line of a key and a fingerprint is an entry when no space cuts the key, it starts no comment
and the authority grammar takes it. -/
theorem parseLine_keyed {y : List Char} {port : Nat} {pin : Pin} {e : PinEntry} :
    parseLine (y ++ ':' :: (showNat port ++ ' ' :: fingerprint pin)) = some e ↔
      (keyText y port).head? ≠ some '#' ∧ ' ' ∉ keyText y port ∧ e.pin = pin ∧
        ∃ p, splitAuthority (keyText y port) = some (e.host, some p) ∧
          parseUnsigned (2 ^ 16) p = some e.port := by
  have htext : trimWs (y ++ ':' :: (showNat port ++ ' ' :: fingerprint pin)) =
      keyText y port ++ ' ' :: fingerprint pin := by
    rw [trim_keyed, keyText]
    simp
  have hne : keyText y port ≠ [] := by simp [keyText]
  have hhead : (keyText y port ++ ' ' :: fingerprint pin).head? = (keyText y port).head? := by
    rw [List.head?_append_of_ne_nil _ hne]
  unfold parseLine
  rw [htext]
  dsimp only
  rw [hhead]
  by_cases hcomment : (keyText y port).head? = some '#'
  · rw [if_pos (.inr hcomment)]
    exact iff_of_false (by simp) fun h => h.1 hcomment
  rw [if_neg (by simp [hcomment, hne])]
  by_cases hspace : ' ' ∈ keyText y port
  · refine iff_of_false (fun h => ?_) fun h => h.2.1 hspace
    have hstart : ' ' ∈ y.dropWhile Refs.isWhitespace := by
      rcases List.mem_append.mp hspace with h | h
      · exact h
      · rcases List.mem_cons.mp h with h | h
        · cases h
        · exact absurd h (showNat_chars (.inr rfl))
    obtain ⟨k, v, hkv, hk⟩ := List.eq_append_cons_of_mem hstart
    have hline : keyText y port ++ ' ' :: fingerprint pin =
        k ++ ' ' :: (v ++ ':' :: (showNat port ++ ' ' :: fingerprint pin)) := by
      rw [keyText, hkv]
      simp
    rw [hline, splitOnce_append _ hk] at h
    simp only [bind, Option.bind_some, Option.bind_eq_some_iff] at h
    obtain ⟨-, -, -, -, pin', hpin, -⟩ := h
    rw [trim_keyed, parseFingerprint_space (by simp)] at hpin
    cases hpin
  · rw [splitOnce_append _ hspace]
    have hfp : trimWs (fingerprint pin) = fingerprint pin := by
      exact trim_eq_self fun c hc => fingerprint_chars hc
    simp only [bind, Option.bind_some, Option.bind_eq_some_iff, hfp, parseFingerprint_fingerprint]
    constructor
    · rintro ⟨⟨host, p⟩, hsplit, port', hport, pin', hpin, he⟩
      cases hpin
      cases he
      obtain ⟨p, rfl, hp⟩ := hport
      exact ⟨hcomment, hspace, rfl, p, hsplit, hp⟩
    · rintro ⟨-, -, hpin, p, hsplit, hport⟩
      exact ⟨(e.host, some p), hsplit, e.port, ⟨p, rfl, hport⟩, pin, rfl, by rw [← hpin]; rfl⟩

/-! ## Hosts -/

/-- What a host of a URL is: a text without a colon, or an address in its canonical text. -/
def IsHost (host : List Char) : Prop :=
  (':' ∉ host ∧ host.head? ≠ some '[') ∨ ∃ a, host = Ipv6.display a

theorem isHost_of_parse {url : List Char} {u : ScHttpUrl} (h : ScHttpUrl.parse url = .ok u) :
    IsHost u.host := by
  obtain ⟨authority, hparsed⟩ := parsed h
  obtain ⟨p, hsplit, -⟩ := hparsed.split
  cases p with
  | some p =>
    rcases splitAuthority_cases hsplit with ⟨ht, hcolon, hhead⟩ | ⟨x, a, -, -, ha⟩
    · refine .inl ⟨hcolon, fun hh => hhead ?_⟩
      rw [ht, List.head?_append_of_ne_nil _ hparsed.host_ne, hh]
    · exact .inr ⟨a, ha⟩
  | none =>
    unfold splitAuthority at hsplit
    split at hsplit
    · simp only [bind, Option.bind_eq_some_iff] at hsplit
      obtain ⟨⟨x, tail⟩, -, a, -, htail⟩ := hsplit
      split at htail
      · simp only [Option.some.injEq, Prod.mk.injEq] at htail
        exact .inr ⟨a, htail.1.symm⟩
      · simp at htail
      · simp at htail
    · next hbracket =>
      split at hsplit
      · cases hsplit
      · next hnone =>
        cases hsplit
        refine .inl ⟨fun hcolon => ?_, fun hhead => ?_⟩
        · obtain ⟨a, b, hab, ha⟩ := List.eq_append_cons_of_mem hcolon
          rw [hab, splitOnce_append b ha] at hnone
          cases hnone
        · obtain ⟨rest, hrest⟩ := List.head?_eq_some_iff.mp hhead
          exact hbracket rest hrest

theorem port_lt_of_parse {url : List Char} {u : ScHttpUrl} (h : ScHttpUrl.parse url = .ok u) :
    u.port < 2 ^ 16 := by
  obtain ⟨authority, hparsed⟩ := parsed h
  obtain ⟨p, -, hport⟩ := hparsed.split
  cases p with
  | some p => exact (parseUnsigned_eq_some_iff.mp hport).2
  | none =>
    rw [← Option.some.inj hport]
    decide

/-- A host that reads back: no space cuts it, and it begins neither with white space nor with the
sign of a comment. -/
def Plain (host : List Char) : Prop :=
  ' ' ∉ host ∧ ∀ c ∈ host.head?, Refs.isWhitespace c = false ∧ c ≠ '#'

theorem eqIgnoreAsciiCase_length {a b : List Char} (h : eqIgnoreAsciiCase a b = true) :
    a.length = b.length := by
  have h := congrArg List.length (beq_iff_eq.mp h)
  simpa using h

theorem toLower_eq_colon {c : Char} : c.toLower = ':' ↔ c = ':' := by
  refine ⟨fun h => ?_, fun h => by rw [h]; decide⟩
  unfold Char.toLower at h
  split at h
  · next hupper =>
    have hsum := congrArg (fun c : Char => c.val.toNat) h
    have hlo := UInt32.le_iff_toNat_le.mp hupper.1
    have hhi := UInt32.le_iff_toNat_le.mp hupper.2
    change (c.val + 32).toNat = 58 at hsum
    change 65 ≤ c.val.toNat at hlo
    change c.val.toNat ≤ 90 at hhi
    rw [UInt32.toNat_add] at hsum
    change (c.val.toNat + 32) % 2 ^ 32 = 58 at hsum
    omega
  · exact h

theorem eqIgnoreAsciiCase_colon {a b : List Char} (h : eqIgnoreAsciiCase a b = true)
    (ha : ':' ∈ a) : ':' ∈ b := by
  have hb : ':' ∈ b.map Char.toLower := by
    rw [← beq_iff_eq.mp h]
    exact List.mem_map.mpr ⟨':', ha, by decide⟩
  obtain ⟨c, hc, hlow⟩ := List.mem_map.mp hb
  rwa [toLower_eq_colon.mp hlow] at hc

theorem bracketHost_of_not_mem {host : List Char} (h : ':' ∉ host) : bracketHost host = host :=
  if_neg h

theorem bracketHost_display (a : Ipv6.Addr) :
    bracketHost (Ipv6.display a) = '[' :: Ipv6.display a ++ [']'] :=
  if_pos (Ipv6.colon_mem_display a)

theorem not_mem_display {c : Char} (h : ¬ Ipv6.Allowed c) (a : Ipv6.Addr) :
    c ∉ Ipv6.display a := fun hc => h (Ipv6.display_allowed a c hc)

theorem not_allowed : ¬ Ipv6.Allowed '[' ∧ ¬ Ipv6.Allowed ']' ∧ ¬ Ipv6.Allowed ' ' := by
  unfold Ipv6.Allowed
  decide

theorem plain_display (a : Ipv6.Addr) : Plain (Ipv6.display a) := by
  refine ⟨not_mem_display not_allowed.2.2 a, fun c hc => ?_⟩
  have hrange := Ipv6.allowed_range (Ipv6.display_allowed a c (List.mem_of_mem_head? hc))
  refine ⟨?_, fun he => by rw [he] at hrange; exact absurd hrange.1 (by decide)⟩
  simp only [Refs.isWhitespace, List.contains_eq_mem, List.mem_cons, List.not_mem_nil, or_false]
  grind

theorem keyText_of_plain {host : List Char} (hp : Plain host) (hne : host ≠ [])
    (port : Nat) : keyText (bracketHost host) port = hostPort host port ∧
      (hostPort host port).head? ≠ some '#' ∧ ' ' ∉ hostPort host port := by
  have hspace : ' ' ∉ hostPort host port := by
    have hport := showNat_chars (n := port) (c := ' ') (.inr rfl)
    have hbracket : ' ' ∉ bracketHost host := by
      unfold bracketHost
      split_ifs <;> simp [hp.1]
    simp [hostPort, hbracket, hport]
  have hhead : ∀ c ∈ (bracketHost host).head?, Refs.isWhitespace c = false ∧ c ≠ '#' := by
    intro c hc
    unfold bracketHost at hc
    split_ifs at hc
    · cases hc
      decide
    · exact hp.2 c hc
  obtain ⟨c, cs, hcs⟩ := List.exists_cons_of_ne_nil (l := bracketHost host) (by
    unfold bracketHost
    split_ifs
    · simp
    · exact hne)
  obtain ⟨hc, hcomment⟩ := hhead c (by rw [hcs]; rfl)
  refine ⟨?_, ?_, hspace⟩
  · rw [keyText, hcs, List.dropWhile_cons_of_neg (by simp [hc]), ← hcs]
    rfl
  · rw [hostPort, hcs]
    simpa using hcomment

theorem splitAuthority_hostPort {host : List Char} (h : IsHost host) (port : Nat) :
    splitAuthority (hostPort host port) = some (host, some (showNat port)) := by
  rcases h with ⟨hcolon, hhead⟩ | ⟨a, rfl⟩
  · rw [hostPort, bracketHost_of_not_mem hcolon]
    unfold splitAuthority
    split
    · next rest heq =>
      cases host with
      | nil => cases heq
      | cons c cs =>
        cases heq
        exact absurd rfl hhead
    · rw [splitOnce_append _ hcolon]
  · have hsplit : splitOnce ']' (Ipv6.display a ++ ']' :: ':' :: showNat port) =
        some (Ipv6.display a, ':' :: showNat port) :=
      splitOnce_append _ (not_mem_display not_allowed.2.1 a)
    have htext : hostPort (Ipv6.display a) port =
        '[' :: (Ipv6.display a ++ ']' :: ':' :: showNat port) := by
      rw [hostPort, bracketHost_display]
      simp
    rw [htext, splitAuthority]
    simp only [bind, hsplit, Option.bind_some, Ipv6.parse_display]

/-- The line that a writer adds reads back, whatever of white space stands around it. -/
theorem parseLine_pinLine {host : List Char} (h : IsHost host) (hp : Plain host) (hne : host ≠ [])
    {port : Nat} (hport : port < 2 ^ 16) (pin : Pin) :
    parseLine (pinLine host port pin) = some ⟨host, port, pin⟩ := by
  obtain ⟨hkey, hhead, hspace⟩ := keyText_of_plain hp hne port
  have hline : pinLine host port pin =
      bracketHost host ++ ':' :: (showNat port ++ ' ' :: fingerprint pin) := by
    simp [pinLine, hostPort]
  rw [hline, parseLine_keyed, hkey]
  exact ⟨hhead, hspace, rfl, showNat port, splitAuthority_hostPort h port,
    parseUnsigned_showNat hport⟩

theorem colon_not_mem {p : List Char} {n : Nat} (h : parseUnsigned (2 ^ 16) p = some n) :
    ':' ∉ p := by
  intro hc
  rcases plusDigits_chars (parseUnsigned_eq_some_iff.mp h).1 hc with hd | hd <;> revert hd <;> decide

/-- A text in front of the line that trimming does not take: the line is no entry of the host. -/
theorem parseLine_joined {host front : List Char} (h : IsHost host) {port : Nat} {pin : Pin}
    (hfront : ¬ ∀ c ∈ front, Refs.isWhitespace c = true) {e : PinEntry}
    (he : parseLine (front ++ pinLine host port pin) = some e) : e.isFor host port = false := by
  have hline : front ++ pinLine host port pin =
      (front ++ bracketHost host) ++ ':' :: (showNat port ++ ' ' :: fingerprint pin) := by
    simp [pinLine, hostPort]
  obtain ⟨m, hm, hdrop⟩ : ∃ m, m ≠ [] ∧
      (front ++ bracketHost host).dropWhile Refs.isWhitespace = m ++ bracketHost host := by
    refine ⟨front.dropWhile Refs.isWhitespace, fun hnil => hfront ?_, ?_⟩
    · exact List.dropWhile_eq_nil_iff.mp hnil
    · rw [List.dropWhile_append, if_neg]
      rw [List.isEmpty_iff]
      exact fun hnil => hfront (List.dropWhile_eq_nil_iff.mp hnil)
  rw [hline, parseLine_keyed] at he
  obtain ⟨-, -, -, p, hsplit, hport⟩ := he
  rw [keyText, hdrop] at hsplit
  rw [Bool.eq_false_iff]
  intro hfor
  have hsame : eqIgnoreAsciiCase e.host host = true := by
    simp only [PinEntry.isFor, Bool.and_eq_true] at hfor
    exact hfor.2
  have hpcolon := colon_not_mem hport
  have hncolon := showNat_chars (n := port) (c := ':') (.inl rfl)
  rcases splitAuthority_cases hsplit with ⟨ht, hcolon, -⟩ | ⟨x, a, ht, hx, ha⟩
  · obtain ⟨heq, -⟩ := append_sep_inj ht hncolon hpcolon
    rcases h with ⟨hc, -⟩ | ⟨b, rfl⟩
    · rw [bracketHost_of_not_mem hc] at heq
      have hlen := eqIgnoreAsciiCase_length hsame
      rw [← heq, List.length_append] at hlen
      have := List.length_pos_of_ne_nil hm
      omega
    · rw [bracketHost_display] at heq
      exact hcolon (by rw [← heq]; simp [Ipv6.colon_mem_display b])
  · have ht' : m ++ bracketHost host ++ ':' :: showNat port =
        ('[' :: x ++ [']']) ++ ':' :: p := by
      rw [ht]
      simp
    obtain ⟨heq, -⟩ := append_sep_inj ht' hncolon hpcolon
    have hacolon : ':' ∈ e.host := by
      rw [ha]
      exact Ipv6.colon_mem_display a
    rcases h with ⟨hc, -⟩ | ⟨b, rfl⟩
    · exact hc (eqIgnoreAsciiCase_colon hsame hacolon)
    · rw [bracketHost_display] at heq
      obtain ⟨c, m, rfl⟩ := List.exists_cons_of_ne_nil hm
      have hxm : x = m ++ '[' :: Ipv6.display b := by
        have h' : m ++ '[' :: Ipv6.display b ++ [']'] = x ++ [']'] := by
          simp only [List.cons_append, List.cons.injEq] at heq
          simpa using heq.2
        exact (List.append_cancel_right h').symm
      have := Ipv6.parse_allowed hx '[' (by rw [hxm]; simp)
      exact not_allowed.1 this

/-- A host that does not read back makes no entry of its own. -/
theorem plain_of_parseLine {host : List Char} (h : IsHost host) {port : Nat} {pin : Pin}
    {e : PinEntry} (he : parseLine (pinLine host port pin) = some e)
    (hfor : e.isFor host port = true) : Plain host := by
  rcases h with ⟨hc, -⟩ | ⟨a, rfl⟩
  · have hline : pinLine host port pin =
        host ++ ':' :: (showNat port ++ ' ' :: fingerprint pin) := by
      simp [pinLine, hostPort, bracketHost_of_not_mem hc]
    rw [hline, parseLine_keyed] at he
    obtain ⟨hhead, hspace, -, p, hsplit, hport⟩ := he
    have hsame : eqIgnoreAsciiCase e.host host = true := by
      simp only [PinEntry.isFor, Bool.and_eq_true] at hfor
      exact hfor.2
    rcases splitAuthority_cases hsplit with ⟨ht, -, -⟩ | ⟨x, a, -, -, ha⟩
    · obtain ⟨heq, -⟩ := append_sep_inj ht (showNat_chars (.inl rfl)) (colon_not_mem hport)
      have hlen := eqIgnoreAsciiCase_length hsame
      have hdrop : host.dropWhile Refs.isWhitespace = host := by
        apply List.IsSuffix.eq_of_length_le (List.dropWhile_suffix _)
        rw [heq, hlen]
      rw [keyText, hdrop] at hhead hspace
      refine ⟨fun hs => hspace (List.mem_append_left _ hs), fun c hch => ?_⟩
      obtain ⟨cs, rfl⟩ := List.head?_eq_some_iff.mp hch
      refine ⟨?_, fun hcomment => hhead (by rw [hcomment]; rfl)⟩
      by_contra hws
      rw [List.dropWhile_cons_of_pos (by simpa using hws)] at hdrop
      have := (List.dropWhile_suffix Refs.isWhitespace (l := cs)).length_le
      rw [hdrop] at this
      simp at this
    · refine absurd (eqIgnoreAsciiCase_colon hsame ?_) hc
      rw [ha]
      exact Ipv6.colon_mem_display a
  · exact plain_display a

/-! ## Entries -/

def entries (text : List Char) : List PinEntry := (rawLines text).filterMap parseLine

theorem lookup_eq (text host : List Char) (port : Nat) :
    lookup text host port = ((entries text).find? fun e => e.isFor host port).map (·.pin) := by
  unfold lookup entries lines
  rw [List.filterMap_map]
  congr 3
  funext raw
  exact parseLine_lineBody raw

/-- Whether a line is no pin of the host and port. -/
def stays (host : List Char) (port : Nat) (line : List Char) : Bool :=
  (parseLine line).all fun e => !e.isFor host port

theorem withoutPins_eq (text host : List Char) (port : Nat) :
    withoutPins text host port =
      (((rawLines text).filter (stays host port)).flatten,
        (rawLines text).countP fun l => !stays host port l) := by
  have hrun : ∀ (raws : List (List Char)) (kept : List Char) (removed : Nat),
      raws.foldl (fun (x : List Char × Nat) line =>
        match parseLine line with
        | some e => if e.isFor host port then (x.1, x.2 + 1) else (x.1 ++ line, x.2)
        | none => (x.1 ++ line, x.2)) (kept, removed) =
      (kept ++ (raws.filter (stays host port)).flatten,
        removed + raws.countP fun l => !stays host port l) := by
    intro raws
    induction raws with
    | nil =>
      intro kept removed
      simp
    | cons raw raws ih =>
      intro kept removed
      rw [List.foldl_cons]
      cases hraw : parseLine raw with
      | none =>
        have hstay : stays host port raw = true := by simp [stays, hraw]
        dsimp only
        rw [ih]
        simp [hstay]
      | some e =>
        by_cases hfor : e.isFor host port = true
        · have hstay : stays host port raw = false := by simp [stays, hraw, hfor]
          dsimp only
          rw [if_pos hfor, ih]
          simp [hstay]
          omega
        · have hstay : stays host port raw = true := by simp [stays, hraw, hfor]
          dsimp only
          rw [if_neg hfor, ih]
          simp [hstay]
  have h := hrun (rawLines text) [] 0
  rw [List.nil_append, Nat.zero_add] at h
  exact h

theorem entries_unlines {ls : List (List Char)} {last : List Char} (hls : ∀ l ∈ ls, '\n' ∉ l)
    (hlast : '\n' ∉ last) :
    entries (unlines ls ++ last) = ls.filterMap parseLine ++ (parseLine last).toList := by
  unfold entries
  rw [rawLines_open hls hlast, List.filterMap_append, List.filterMap_map]
  congr 1
  · congr 1
    funext l
    exact parseLine_pad (by simp [Refs.isWhitespace])
  · split_ifs with hnil
    · rw [hnil]
      rfl
    · cases h : parseLine last <;> simp [h]

theorem pinLine_line {host : List Char} {port : Nat} {pin : Pin} (h : '\n' ∉ host) :
    '\n' ∉ pinLine host port pin := by
  have hport : '\n' ∉ showNat port := fun hn => absurd (showNat_isDigit hn) (by decide)
  have hfp : '\n' ∉ fingerprint pin := fun hn => absurd (fingerprint_chars hn) (by decide)
  have hbracket : '\n' ∉ bracketHost host := by
    unfold bracketHost
    split_ifs <;> simp [h]
  simp [pinLine, hostPort, hbracket, hport, hfp]

/-- What the line appended by `record` is read as, joined to the unfinished line before it. -/
theorem entries_record {ls : List (List Char)} {last host : List Char} {port : Nat} {pin : Pin}
    (hls : ∀ l ∈ ls, '\n' ∉ l) (hlast : '\n' ∉ last) (hhost : '\n' ∉ host) :
    entries (record (unlines ls ++ last) host port pin) =
      ls.filterMap parseLine ++ (parseLine (last ++ pinLine host port pin)).toList := by
  have hline : '\n' ∉ last ++ pinLine host port pin := by simp [hlast, pinLine_line hhost]
  have htext : record (unlines ls ++ last) host port pin =
      unlines (ls ++ [last ++ pinLine host port pin]) ++ [] := by
    simp [record, unlines_append]
  rw [htext, entries_unlines (fun l hl => ?_) (by simp)]
  · have hnil : parseLine [] = none := rfl
    rw [hnil, List.filterMap_append]
    cases h : parseLine (last ++ pinLine host port pin) <;> simp [h]
  · rcases List.mem_append.mp hl with hl | hl
    · exact hls l hl
    · rwa [List.mem_singleton.mp hl]

theorem filterMap_stays (host : List Char) (port : Nat) (raws : List (List Char)) :
    (raws.filter (stays host port)).filterMap parseLine =
      (raws.filterMap parseLine).filter fun e => !e.isFor host port := by
  rw [List.filterMap_filter, List.filter_filterMap]
  congr 1
  funext raw
  unfold stays
  cases parseLine raw with
  | none => rfl
  | some e => simp [Option.filter]

/-- The lines kept, as lines and an unfinished one. -/
theorem kept_lines {ls : List (List Char)} {last : List Char} (hls : ∀ l ∈ ls, '\n' ∉ l)
    (hlast : '\n' ∉ last) (host : List Char) (port : Nat) :
    ∃ ls' last', (withoutPins (unlines ls ++ last) host port).1 = unlines ls' ++ last' ∧
      (∀ l ∈ ls', '\n' ∉ l) ∧ '\n' ∉ last' ∧
      ls'.filterMap parseLine ++ (parseLine last').toList =
        (entries (unlines ls ++ last)).filter fun e => !e.isFor host port := by
  have hpad : ∀ l, stays host port (l ++ ['\n']) = stays host port l := by
    intro l
    unfold stays
    rw [parseLine_pad (by simp [Refs.isWhitespace])]
  refine ⟨ls.filter (stays host port), if stays host port last then last else [], ?_,
    fun l hl => hls l (List.mem_of_mem_filter hl), ?_, ?_⟩
  · rw [withoutPins_eq, rawLines_open hls hlast, List.filter_append]
    dsimp only
    rw [List.flatten_append]
    congr 1
    · rw [List.filter_map, unlines, List.flatMap]
      congr 2
      exact List.filter_congr fun l _ => hpad l
    · by_cases hnil : last = []
      · simp [hnil]
      · rw [if_neg hnil]
        by_cases hstay : stays host port last = true <;> simp [hstay]
  · split_ifs
    · exact hlast
    · simp
  · rw [entries_unlines hls hlast, List.filter_append, filterMap_stays]
    congr 1
    have hnil : parseLine [] = none := rfl
    cases h : parseLine last with
    | none =>
      split_ifs <;> simp [h, hnil]
    | some e =>
      by_cases hfor : e.isFor host port = true <;> simp [stays, h, hfor, hnil]

theorem getLast?_unlines (ls : List (List Char)) :
    unlines ls = [] ∨ (unlines ls).getLast? = some '\n' := by
  rcases List.eq_nil_or_concat ls with rfl | ⟨ls, l, rfl⟩
  · exact .inl rfl
  · right
    rw [List.concat_eq_append, unlines_append]
    simp [unlines]

/-- The text that `setPin` adds its line to. -/
theorem setPin_fst (text host : List Char) (port : Nat) (pin : Pin) :
    (setPin text host port pin).1 =
      (if (withoutPins text host port).1 ≠ [] ∧
          (withoutPins text host port).1.getLast? ≠ some '\n' then
        (withoutPins text host port).1 ++ ['\n']
      else (withoutPins text host port).1) ++ (pinLine host port pin ++ ['\n']) := rfl

theorem forget_fst (text host : List Char) (port : Nat) :
    (forget text host port).1 = (withoutPins text host port).1 := by
  unfold forget
  dsimp only
  split_ifs with h
  · rfl
  · rw [withoutPins_eq] at h ⊢
    have hall : (rawLines text).filter (stays host port) = rawLines text := by
      rw [List.filter_eq_self]
      intro l hl
      have hzero := List.countP_eq_zero.mp (Nat.eq_zero_of_not_pos h) l hl
      simpa using hzero
    rw [hall, rawLines_flatten]

theorem entries_setPin (text : List Char) {host : List Char} (port : Nat) (pin : Pin)
    (hhost : '\n' ∉ host) :
    entries (setPin text host port pin).1 =
      ((entries text).filter fun e => !e.isFor host port) ++
        (parseLine (pinLine host port pin)).toList := by
  obtain ⟨ls, last, rfl, hls, hlast⟩ := exists_lines text
  obtain ⟨ls', last', hkept, hls', hlast', hentries⟩ := kept_lines hls hlast host port
  rw [← hentries]
  have hline := @pinLine_line _ port pin hhost
  have hnil : parseLine [] = none := rfl
  by_cases hempty : last' = []
  · have htext : (setPin (unlines ls ++ last) host port pin).1 =
        record (unlines ls' ++ []) host port pin := by
      rw [setPin_fst, hkept, hempty, List.append_nil, if_neg]
      · simp [record]
      · rintro ⟨hne, hlast⟩
        rcases getLast?_unlines ls' with h | h
        · exact hne h
        · exact hlast h
    rw [htext, entries_record hls' (by simp) hhost, hempty, hnil]
    simp
  · have htext : (setPin (unlines ls ++ last) host port pin).1 =
        record (unlines (ls' ++ [last']) ++ []) host port pin := by
      have hend : (unlines ls' ++ last').getLast? ≠ some '\n' := by
        rw [List.getLast?_append_of_ne_nil _ hempty]
        exact fun h => hlast' (List.mem_of_getLast? h)
      rw [setPin_fst, hkept, if_pos ⟨by simp [hempty], hend⟩]
      simp [record, unlines_append]
    rw [htext, entries_record (fun l hl => ?_) (by simp) hhost]
    · rw [List.filterMap_append]
      cases h : parseLine last' <;> simp [h]
    · rcases List.mem_append.mp hl with hl | hl
      · exact hls' l hl
      · rwa [List.mem_singleton.mp hl]

theorem entries_forget (text host : List Char) (port : Nat) :
    entries (forget text host port).1 =
      (entries text).filter fun e => !e.isFor host port := by
  obtain ⟨ls, last, rfl, hls, hlast⟩ := exists_lines text
  obtain ⟨ls', last', hkept, hls', hlast', hentries⟩ := kept_lines hls hlast host port
  rw [forget_fst, hkept, entries_unlines hls' hlast', hentries]

/-! ## The writers and the lookup -/

/-- The same key, whatever the case of the letters. -/
def SameKey (host : List Char) (port : Nat) (host' : List Char) (port' : Nat) : Prop :=
  port' = port ∧ eqIgnoreAsciiCase host' host = true

instance (host : List Char) (port : Nat) (host' : List Char) (port' : Nat) :
    Decidable (SameKey host port host' port') := inferInstanceAs (Decidable (_ ∧ _))

theorem isFor_of_sameKey {host host' : List Char} {port port' : Nat}
    (h : SameKey host port host' port') (e : PinEntry) :
    e.isFor host' port' = e.isFor host port := by
  obtain ⟨rfl, hhost⟩ := h
  have hlow := beq_iff_eq.mp hhost
  simp only [PinEntry.isFor, eqIgnoreAsciiCase, hlow]

theorem sameKey_of_isFor {host host' : List Char} {port port' : Nat} {e : PinEntry}
    (h : e.isFor host port = true) (h' : e.isFor host' port' = true) :
    SameKey host port host' port' := by
  simp only [PinEntry.isFor, eqIgnoreAsciiCase, Bool.and_eq_true, beq_iff_eq] at h h'
  exact ⟨h'.1.symm.trans h.1, beq_iff_eq.mpr (h'.2.symm.trans h.2)⟩

/-- Without the entries of a key, every other key finds what it found. -/
theorem find_filter (es : List PinEntry) (host host' : List Char) (port port' : Nat) :
    (es.filter fun e => !e.isFor host port).find? (fun e => e.isFor host' port') =
      if SameKey host port host' port' then none else es.find? fun e => e.isFor host' port' := by
  split_ifs with h
  · rw [List.find?_eq_none]
    intro e he
    rw [isFor_of_sameKey h]
    simpa using (List.mem_filter.mp he).2
  · rw [List.find?_filter]
    congr 1
    funext e
    by_cases hfor : e.isFor host' port' = true
    · have : e.isFor host port = false := by
        rw [Bool.eq_false_iff]
        exact fun hsame => h (sameKey_of_isFor hsame hfor)
      simp [hfor, this]
    · simp [hfor]

theorem find_append_own {es : List PinEntry} {host : List Char} {port : Nat} {pin : Pin}
    (host' : List Char) (port' : Nat) :
    ((es ++ [(⟨host, port, pin⟩ : PinEntry)]).find? fun e => e.isFor host' port') =
      (es.find? fun e => e.isFor host' port').or
        (if SameKey host port host' port' then some ⟨host, port, pin⟩ else none) := by
  rw [List.find?_append, List.find?_singleton]
  congr 1
  by_cases h : SameKey host port host' port'
  · have hown : PinEntry.isFor ⟨host, port, pin⟩ host' port' = true := by
      rw [isFor_of_sameKey h]
      simp [PinEntry.isFor, eqIgnoreAsciiCase]
    rw [if_pos h, hown]
    rfl
  · have hown : PinEntry.isFor ⟨host, port, pin⟩ host' port' = false := by
      rw [Bool.eq_false_iff]
      intro hfor
      refine h (sameKey_of_isFor (e := ⟨host, port, pin⟩) ?_ hfor)
      simp [PinEntry.isFor, eqIgnoreAsciiCase]
    rw [if_neg h, hown]
    rfl

/-- What stands behind the last newline is white space or nothing. -/
def EndsClean (text : List Char) : Prop := ∀ c ∈ openLine text, Refs.isWhitespace c = true

/-- The three writers do for the lookup what they are for: the named key finds the new pin or none,
every other key what it found before. -/
structure Kept (text host : List Char) (port : Nat) (pin : Pin) : Prop where
  record : lookup text host port = none → ∀ host' port',
    lookup (TlsPins.record text host port pin) host' port' =
      if SameKey host port host' port' then some pin else lookup text host' port'
  setPin : ∀ host' port', lookup (TlsPins.setPin text host port pin).1 host' port' =
    if SameKey host port host' port' then some pin else lookup text host' port'
  forget : ∀ host' port', lookup (TlsPins.forget text host port).1 host' port' =
    if SameKey host port host' port' then none else lookup text host' port'

theorem lookup_forget (text host : List Char) (port : Nat) (host' : List Char) (port' : Nat) :
    lookup (forget text host port).1 host' port' =
      if SameKey host port host' port' then none else lookup text host' port' := by
  rw [lookup_eq, entries_forget, find_filter, lookup_eq]
  split_ifs <;> rfl

theorem lookup_sameKey {text host host' : List Char} {port port' : Nat}
    (h : SameKey host port host' port') : lookup text host' port' = lookup text host port := by
  rw [lookup_eq, lookup_eq]
  congr 2
  funext e
  exact isFor_of_sameKey h e

theorem parseLine_blank {s : List Char} (h : ∀ c ∈ s, Refs.isWhitespace c = true) :
    parseLine s = none := parseLine_pad (s := []) h

theorem kept_of_plain {text host : List Char} {port : Nat} (h : IsHost host) (hne : host ≠ [])
    (hline : '\n' ∉ host) (hport : port < 2 ^ 16) (pin : Pin) (hp : Plain host)
    (hend : lookup text host port = none → EndsClean text) : Kept text host port pin := by
  have hown := parseLine_pinLine h hp hne hport pin
  refine ⟨fun hnone host' port' => ?_, fun host' port' => ?_, lookup_forget text host port⟩
  · have hclean := hend hnone
    obtain ⟨ls, last, rfl, hls, hlast⟩ := exists_lines text
    rw [EndsClean, openLine_unlines ls hlast] at hclean
    have hjoined : parseLine (last ++ pinLine host port pin) = some ⟨host, port, pin⟩ := by
      rw [← hown]
      have hpad := TrimText.trim_pad hclean (pinLine host port pin) (b := []) (by simp)
      rw [List.append_nil] at hpad
      exact parseLine_congr hpad
    have hentries : entries (unlines ls ++ last) = ls.filterMap parseLine := by
      rw [entries_unlines hls hlast, parseLine_blank hclean]
      simp
    rw [lookup_eq, entries_record hls hlast hline, hjoined, ← hentries]
    change Option.map _ (List.find? _ (_ ++ [_])) = _
    rw [find_append_own]
    split_ifs with hsame
    · have hfind : (entries (unlines ls ++ last)).find? (fun e => e.isFor host' port') = none := by
        rw [← lookup_sameKey hsame, lookup_eq] at hnone
        simpa using hnone
      rw [hfind]
      rfl
    · rw [Option.or_none, lookup_eq]
  · rw [lookup_eq, entries_setPin text port pin hline, hown]
    change Option.map _ (List.find? _ (_ ++ [_])) = _
    rw [find_append_own, find_filter, lookup_eq]
    split_ifs with hsame
    · rfl
    · rw [Option.or_none]

theorem sameKey_self (host : List Char) (port : Nat) : SameKey host port host port :=
  ⟨rfl, by simp [eqIgnoreAsciiCase]⟩

theorem plain_of_kept {text host : List Char} {port : Nat} {pin : Pin} (h : IsHost host)
    (hline : '\n' ∉ host) (hk : Kept text host port pin) : Plain host := by
  have hset := hk.setPin host port
  rw [if_pos (sameKey_self host port), lookup_eq, entries_setPin text port pin hline,
    List.find?_append, find_filter, if_pos (sameKey_self host port), Option.none_or] at hset
  cases hown : parseLine (pinLine host port pin) with
  | none =>
    rw [hown] at hset
    cases hset
  | some e =>
    rw [hown, Option.toList_some, List.find?_singleton] at hset
    split_ifs at hset with hfor
    · exact plain_of_parseLine h hown hfor
    · cases hset

theorem endsClean_of_kept {text host : List Char} {port : Nat} {pin : Pin} (h : IsHost host)
    (hline : '\n' ∉ host) (hk : Kept text host port pin) (hnone : lookup text host port = none) :
    EndsClean text := by
  have hrec := hk.record hnone host port
  obtain ⟨ls, last, rfl, hls, hlast⟩ := exists_lines text
  rw [EndsClean, openLine_unlines ls hlast]
  by_contra hblank
  rw [lookup_eq, entries_unlines hls hlast, Option.map_eq_none_iff, List.find?_append,
    Option.or_eq_none_iff] at hnone
  rw [if_pos (sameKey_self host port), lookup_eq, entries_record hls hlast hline,
    List.find?_append, hnone.1, Option.none_or] at hrec
  cases hjoin : parseLine (last ++ pinLine host port pin) with
  | none =>
    rw [hjoin] at hrec
    cases hrec
  | some e =>
    rw [hjoin, Option.toList_some, List.find?_singleton, parseLine_joined h hblank hjoin] at hrec
    cases hrec

/-- The writers keep the pins of a host and port of a URL exactly when the host reads back and, as
long as there is no pin, the file ends in a whole line. -/
theorem pins_kept_iff {url : List Char} {u : ScHttpUrl} (hu : ScHttpUrl.parse url = .ok u)
    (text : List Char) (pin : Pin) :
    Kept text u.host u.port pin ↔
      Plain u.host ∧ (lookup text u.host u.port = none → EndsClean text) := by
  obtain ⟨authority, hparsed⟩ := parsed hu
  have hhost := isHost_of_parse hu
  have hline := hparsed.host_line.2
  constructor
  · intro hk
    exact ⟨plain_of_kept hhost hline hk, endsClean_of_kept hhost hline hk⟩
  · rintro ⟨hp, hend⟩
    exact kept_of_plain hhost hparsed.host_ne hline (port_lt_of_parse hu) pin hp hend

def zeroPin : Pin := ⟨List.replicate 32 0, rfl⟩

theorem pins_kept_iff_example :
    Kept "# pins\n".toList "Example.org".toList 8730 zeroPin ↔
      Plain "Example.org".toList ∧
        (lookup "# pins\n".toList "Example.org".toList 8730 = none → EndsClean "# pins\n".toList) :=
  @pins_kept_iff "sc+https://Example.org/repo".toList
    ⟨"Example.org".toList, 8730, "/repo".toList, true⟩ (by decide) "# pins\n".toList zeroPin

/-- A comment that no newline ends takes the recorded pin for its own text. -/
theorem record_behind_comment :
    ScHttpUrl.parse "sc+https://h/repo".toList = .ok ⟨"h".toList, 8730, "/repo".toList, true⟩ ∧
    lookup "# pins".toList "h".toList 8730 = none ∧
    lookup (record "# pins".toList "h".toList 8730 zeroPin) "h".toList 8730 = none := by
  refine ⟨by decide, by decide +kernel, by decide +kernel⟩

end SrcControl.TlsPins
