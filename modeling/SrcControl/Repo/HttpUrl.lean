import SrcControl.Lib.Ipv6
import SrcControl.Core.Error
import SrcControl.Lib.Fallible
import SrcControl.Lib.LineText
import SrcControl.Repo.Refs

/-!
# sc-native HTTP URLs

`ScHttpUrl::parse` and the authority grammar it shares with the pin file.
-/

namespace SrcControl.HttpUrl

open LineText

/-- `str::trim`. -/
def trimWs (s : List Char) : List Char := LineText.trim Refs.isWhitespace s

/-- `str::eq_ignore_ascii_case`. -/
def eqIgnoreAsciiCase (a b : List Char) : Bool := a.map Char.toLower == b.map Char.toLower

def DEFAULT_PORT : Nat := 8730

structure ScHttpUrl where
  host : List Char
  port : Nat
  path : List Char
  tls : Bool
deriving DecidableEq

/-- The host and the text of the port; a bracketed address in its canonical text. -/
def splitAuthority (authority : List Char) : Option (List Char × Option (List Char)) :=
  match authority with
  | '[' :: rest => do
    let (host, tail) ← splitOnce ']' rest
    let addr ← Ipv6.parse host
    match tail with
    | [] => some (Ipv6.display addr, none)
    | ':' :: port => some (Ipv6.display addr, some port)
    | _ => none
  | _ =>
    match splitOnce ':' authority with
    | some (h, p) => some (h, some p)
    | none => some (authority, none)

def invalid (what : String) (url : List Char) : Error :=
  let text := String.ofList url
  .invalidArgument s!"{what}: {text}"

/-- The scheme decides on TLS. -/
def stripScheme (url : List Char) : Option (List Char × Bool) :=
  match stripPrefix "sc+http://".toList url with
  | some rest => some (rest, false)
  | none => (stripPrefix "sc+https://".toList url).map fun rest => (rest, true)

/-- `s.contains(['\r', '\n'])`. -/
def hasLineBreak (s : List Char) : Bool := s.any fun c => c == '\r' || c == '\n'

/-- An empty remainder becomes `/`. -/
def pathOf (rest : List Char) : List Char :=
  let path := rest.dropWhile (· != '/')
  if path = [] then ['/'] else path

def ScHttpUrl.parse (url : List Char) : Except Error ScHttpUrl :=
  match stripScheme url with
  | none => .error (invalid "not an sc+http(s):// url" url)
  | some (rest, tls) => do
    let authority := rest.takeWhile (· != '/')
    let path := pathOf rest
    let (host, port) ← (match splitAuthority authority with
      | some (h, some p) =>
        match parseUnsigned (2 ^ 16) p with
        | some port => .ok (h, port)
        | none => .error (invalid "bad port in sc+http url" url)
      | some (h, none) => .ok (h, DEFAULT_PORT)
      | none => .error (invalid "malformed bracketed host in sc+http url" url))
    if host = [] then
      let text := String.ofList url
      .error (.invalidArgument s!"sc+http url has empty host: {text}")
    else if hasLineBreak host || hasLineBreak path then
      .error (invalid "sc+http url host/path must not contain CR or LF" url)
    else .ok ⟨host, port, path, tls⟩

/-- An IPv6 literal gets its brackets back. -/
def bracketHost (host : List Char) : List Char :=
  if ':' ∈ host then '[' :: host ++ [']'] else host

/-- `host:port`, the key of the pin file. -/
def hostPort (host : List Char) (port : Nat) : List Char := bracketHost host ++ ':' :: showNat port

/-! ## What the parser lets through -/

theorem not_mem_of_not_hasLineBreak {s : List Char} (h : hasLineBreak s = false) :
    '\r' ∉ s ∧ '\n' ∉ s := by
  simp only [hasLineBreak, List.any_eq_false, Bool.or_eq_true, beq_iff_eq, not_or] at h
  exact ⟨fun hr => (h _ hr).1 rfl, fun hn => (h _ hn).2 rfl⟩

structure Parsed (u : ScHttpUrl) (authority : List Char) : Prop where
  authority_plain : '/' ∉ authority
  split : ∃ p, splitAuthority authority = some (u.host, p) ∧
    (p.elim (some DEFAULT_PORT) (parseUnsigned (2 ^ 16)) = some u.port)
  host_ne : u.host ≠ []
  host_line : '\r' ∉ u.host ∧ '\n' ∉ u.host
  path_line : '\r' ∉ u.path ∧ '\n' ∉ u.path
  path_slash : ∃ rest, u.path = '/' :: rest

theorem pathOf_slash (rest : List Char) : ∃ tail, pathOf rest = '/' :: tail := by
  unfold pathOf
  dsimp only
  split_ifs with hnil
  · exact ⟨[], rfl⟩
  · obtain ⟨c, cs, hcs⟩ := List.exists_cons_of_ne_nil hnil
    have hc := List.head_dropWhile_not (· != '/') hnil
    simp only [hcs, List.head_cons, bne_eq_false_iff_eq] at hc
    exact ⟨cs, by rw [hcs, hc]⟩

theorem parsed {url : List Char} {u : ScHttpUrl} (h : ScHttpUrl.parse url = .ok u) :
    ∃ authority, Parsed u authority := by
  unfold ScHttpUrl.parse at h
  split at h
  · cases h
  · next rest tls _ =>
    obtain ⟨⟨host, port⟩, hsplit, h⟩ := Fallible.bind_ok h
    dsimp only at h
    split_ifs at h with hempty hline
    cases h
    simp only [Bool.or_eq_true, not_or, Bool.not_eq_true] at hline
    refine ⟨rest.takeWhile (· != '/'), ?_, ?_, hempty, not_mem_of_not_hasLineBreak hline.1,
      not_mem_of_not_hasLineBreak hline.2, pathOf_slash rest⟩
    · exact fun hm => by simpa using List.mem_takeWhile_imp hm
    · split at hsplit
      · next h' p heq =>
        split at hsplit
        · next port' hport =>
          cases hsplit
          exact ⟨some p, heq, hport⟩
        · cases hsplit
      · next h' heq =>
        cases hsplit
        exact ⟨none, heq, rfl⟩
      · cases hsplit

end SrcControl.HttpUrl
