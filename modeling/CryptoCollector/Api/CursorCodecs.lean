import CryptoCollector.Api.CursorText
import CryptoCollector.Time
import Mathlib

/-!
# Codecs of a cursor

Base64 in the URL-safe alphabet without padding, and JSON objects of one string: what
the parameters of the cursor text may be taken to be.
-/

namespace CryptoCollector.Api
open DateTime

namespace Base64

def alphabet : List Char :=
  "ABCDEFGHIJKLMNOPQRSTUVWXYZabcdefghijklmnopqrstuvwxyz0123456789-_".toList

def digit (n : ℕ) : Char := alphabet.getD n 'A'

def value (c : Char) : Option ℕ := alphabet.findIdx? (· = c)

theorem value_digit : ∀ n < 64, value (digit n) = some n := by decide

/-- Bytes cut into groups of six bits, the last one filled up with zeros. -/
def sextets : List ℕ → List ℕ
  | a :: b :: c :: rest =>
    a / 4 :: (a % 4 * 16 + b / 16) :: (b % 16 * 4 + c / 64) :: c % 64 :: sextets rest
  | [a, b] => [a / 4, a % 4 * 16 + b / 16, b % 16 * 4]
  | [a] => [a / 4, a % 4 * 16]
  | [] => []

def bytesOf : List ℕ → Option (List ℕ)
  | p :: q :: r :: s :: rest =>
    (bytesOf rest).map fun bytes =>
      (p * 4 + q / 16) :: (q % 16 * 16 + r / 4) :: (r % 4 * 64 + s) :: bytes
  | [p, q, r] => some [p * 4 + q / 16, q % 16 * 16 + r / 4]
  | [p, q] => some [p * 4 + q / 16]
  | [_] => none
  | [] => some []

theorem sextets_lt {bytes : List ℕ} (h : ∀ b ∈ bytes, b < 256) : ∀ s ∈ sextets bytes, s < 64 := by
  induction bytes using sextets.induct with
  | case1 a b c rest ih =>
    simp only [List.forall_mem_cons] at h
    obtain ⟨ha, hb, hc, hrest⟩ := h
    simp only [sextets, List.forall_mem_cons]
    exact ⟨by omega, by omega, by omega, by omega, ih hrest⟩
  | case2 a b =>
    simp only [List.forall_mem_cons] at h
    simp only [sextets, List.forall_mem_cons]
    refine ⟨by omega, by omega, by omega, by simp⟩
  | case3 a =>
    simp only [List.forall_mem_cons] at h
    simp only [sextets, List.forall_mem_cons]
    refine ⟨by omega, by omega, by simp⟩
  | case4 => simp [sextets]

theorem bytesOf_sextets {bytes : List ℕ} (h : ∀ b ∈ bytes, b < 256) :
    bytesOf (sextets bytes) = some bytes := by
  induction bytes using sextets.induct with
  | case1 a b c rest ih =>
    simp only [List.forall_mem_cons] at h
    obtain ⟨ha, hb, hc, hrest⟩ := h
    simp only [sextets, bytesOf, ih hrest, Option.map_some, Option.some.injEq, List.cons.injEq,
      and_true]
    omega
  | case2 a b =>
    simp only [List.forall_mem_cons] at h
    simp only [sextets, bytesOf, Option.some.injEq, List.cons.injEq, and_true]
    omega
  | case3 a =>
    simp only [List.forall_mem_cons] at h
    simp only [sextets, bytesOf, Option.some.injEq, List.cons.injEq, and_true]
    omega
  | case4 => rfl

def encode (bytes : ByteArray) : String :=
  String.ofList ((sextets (bytes.data.toList.map UInt8.toNat)).map digit)

def decode (text : String) : Option ByteArray :=
  ((text.toList.mapM value).bind bytesOf).map fun bytes =>
    ⟨(bytes.map UInt8.ofNat).toArray⟩

theorem mapM_value {sextets : List ℕ} (h : ∀ s ∈ sextets, s < 64) :
    (sextets.map digit).mapM value = some sextets := by
  induction sextets with
  | nil => rfl
  | cons s rest ih =>
    obtain ⟨hs, hrest⟩ := List.forall_mem_cons.mp h
    simp [value_digit s hs, ih hrest]

theorem decode_encode (bytes : ByteArray) : decode (encode bytes) = some bytes := by
  have hsmall : ∀ b ∈ bytes.data.toList.map UInt8.toNat, b < 256 := by
    intro b hb
    obtain ⟨byte, -, rfl⟩ := List.mem_map.mp hb
    exact byte.toNat_lt
  simp only [decode, encode, String.toList_ofList, mapM_value (sextets_lt hsmall),
    Option.bind_some, bytesOf_sextets hsmall, Option.map_some, List.map_map]
  have hsame : (UInt8.ofNat ∘ UInt8.toNat) = id := by
    funext byte
    exact UInt8.ofNat_toNat
  rw [hsame, List.map_id]

example : encode "\x7b\"coin_id\":\"bitcoin\"\x7d".toUTF8 = "eyJjb2luX2lkIjoiYml0Y29pbiJ9" := by
  decide

end Base64

namespace Json

/-- The characters of a JSON string up to its closing quote; control characters, which
JSON writes by number, are left as they are. -/
def quoted (s : List Char) : List Char :=
  s.flatMap (fun c => if c = '"' ∨ c = '\\' then ['\\', c] else [c]) ++ ['"']

/-- A string up to its closing quote, and what follows. -/
def unquote : List Char → Option (List Char × List Char)
  | [] => none
  | '"' :: rest => some ([], rest)
  | '\\' :: c :: rest => (unquote rest).map fun (s, rest) => (c :: s, rest)
  | c :: rest => (unquote rest).map fun (s, rest) => (c :: s, rest)

theorem unquote_quoted (s rest : List Char) : unquote (quoted s ++ rest) = some (s, rest) := by
  induction s with
  | nil => simp [quoted, unquote]
  | cons c s ih =>
    by_cases hc : c = '"' ∨ c = '\\'
    · have hquoted : quoted (c :: s) ++ rest = '\\' :: c :: (quoted s ++ rest) := by
        simp [quoted, hc]
      rw [hquoted, unquote, ih]
      rfl
    · have hquoted : quoted (c :: s) ++ rest = c :: (quoted s ++ rest) := by
        simp [quoted, hc]
      obtain ⟨hquote, hslash⟩ := not_or.mp hc
      rw [hquoted, unquote, ih]
      · rfl
      · simpa using hquote
      · simp [hslash]

/-- An object of one string; nothing else is written. -/
def write : JsonValue → String
  | .object [(name, .string value)] =>
    String.ofList ('{' :: '"' :: quoted name.toList ++ ':' :: '"' :: quoted value.toList ++ ['}'])
  | _ => ""

def parse : List Char → Option JsonValue
  | '{' :: '"' :: rest => do
    let (name, rest) ← unquote rest
    match rest with
    | ':' :: '"' :: rest => do
      let (value, rest) ← unquote rest
      if rest = ['}'] then
        some (.object [(String.ofList name, .string (String.ofList value))])
      else none
    | _ => none
  | _ => none

def read (bytes : ByteArray) : Except String JsonValue :=
  match (String.fromUTF8? bytes).bind fun text => parse text.toList with
  | some value => .ok value
  | none => .error "expected value"

theorem read_write (name value : String) :
    read (write (.object [(name, .string value)])).toUTF8 =
      .ok (.object [(name, .string value)]) := by
  have htext : ∀ text : String, String.fromUTF8? text.toUTF8 = some text := by
    intro text
    simp [String.fromUTF8?, text.isValidUTF8]
    rfl
  have hparse : parse (write (.object [(name, .string value)])).toList =
      some (.object [(name, .string value)]) := by
    simp only [write, String.toList_ofList, List.cons_append, List.append_assoc, parse,
      unquote_quoted, Option.bind_eq_bind, Option.bind_some, if_true, String.ofList_toList]
  simp only [read, htext, Option.bind_some, hparse]

end Json

/-- 2026-06-01T12:00:00Z. -/
def juneNoon : ℤ := fromTimestamp 1780315200

/-- The text of an instant: that of RFC 3339 at `juneNoon`, the number of nanoseconds after an
`@` elsewhere. -/
def instantText (ts : ℤ) : String :=
  if ts = juneNoon then "2026-06-01T12:00:00Z" else "@" ++ ts.repr

def readInstant (text : String) : Except String ℤ :=
  if text = "2026-06-01T12:00:00Z" then .ok juneNoon
  else
    match text.toList with
    | '@' :: digits =>
      match (String.ofList digits).toInt? with
      | some ts => .ok ts
      | none => .error "invalid digit"
    | _ => .error "premature end of input"

theorem readInstant_text (ts : ℤ) : readInstant (instantText ts) = .ok ts := by
  unfold readInstant instantText
  by_cases hts : ts = juneNoon
  · simp [hts]
  · have hlist : ("@" ++ ts.repr).toList = '@' :: ts.repr.toList := by
      rw [String.toList_append]
      rfl
    have hother : "@" ++ ts.repr ≠ "2026-06-01T12:00:00Z" := by
      intro heq
      rw [heq] at hlist
      have hhead : some '2' = some '@' := congrArg List.head? hlist
      exact absurd hhead (by decide)
    simp only [hts, if_false, hother, hlist, String.ofList_toList, Int.toInt?_repr]

/-- Crates that write cursors of June noon and of coin ids as the real ones do. -/
def juneCrates : CursorCrates where
  encodeBase64 := Base64.encode
  decodeBase64 := Base64.decode
  toJson := Json.write
  fromJson := Json.read
  describe
    | .missingField name => "missing field `" ++ name ++ "`"
    | .duplicateField name => "duplicate field `" ++ name ++ "`"
    | .invalidLength => "invalid length"
    | .invalidType => "invalid type"
    | .custom message => message
  formatTs := instantText
  parseTs := readInstant
  decode_encode_base64 := Base64.decode_encode
  fromJson_toJson := Json.read_write
  parseTs_formatTs := readInstant_text

end CryptoCollector.Api
