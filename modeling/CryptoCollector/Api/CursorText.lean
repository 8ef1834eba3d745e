import CryptoCollector.Api.Cursor

/-!
# Cursor text

A cursor is the JSON of a key in base64url. The crates that write and read the two,
and the text of an instant, are parameters, each with the round trip it documents;
what the derived serializers of the key types make of a key is written out.
-/

namespace CryptoCollector.Api

/-- A JSON value, in the detail a key is read in. -/
inductive JsonValue where
  | string (s : String)
  | object (members : List (String × JsonValue))
  | array (items : List JsonValue)
  | other

/-- Why a derived `Deserialize` refuses a value. -/
inductive SerdeError where
  | missingField (name : String)
  | duplicateField (name : String)
  | invalidLength
  | invalidType
  | custom (message : String)
  deriving DecidableEq, Repr

/-- What `cursor.rs` uses of base64, serde_json and chrono. -/
structure CursorCrates where
  /-- `URL_SAFE_NO_PAD.encode`. -/
  encodeBase64 : ByteArray → String
  /-- `URL_SAFE_NO_PAD.decode`. -/
  decodeBase64 : String → Option ByteArray
  /-- `serde_json::to_string`. -/
  toJson : JsonValue → String
  /-- `serde_json::from_slice`, up to the value it hands to the key's `Deserialize`. -/
  fromJson : ByteArray → Except String JsonValue
  /-- The text of a `Deserialize` error. -/
  describe : SerdeError → String
  /-- The text of a `DateTime<Utc>`. -/
  formatTs : ℤ → String
  parseTs : String → Except String ℤ
  decode_encode_base64 : ∀ bytes, decodeBase64 (encodeBase64 bytes) = some bytes
  fromJson_toJson : ∀ name value,
    fromJson (toJson (.object [(name, .string value)])).toUTF8 =
      .ok (.object [(name, .string value)])
  parseTs_formatTs : ∀ ts, parseTs (formatTs ts) = .ok ts

structure CoinListKey where
  coinId : String
  deriving DecidableEq, Repr

/-- A derived `Deserialize` of a structure of one field: an object with the field once,
or an array of it. -/
def readField {β : Type} (name : String) (read : JsonValue → Except SerdeError β) :
    JsonValue → Except SerdeError β
  | .object members =>
    match members.filter fun member => member.1 = name with
    | [] => .error (.missingField name)
    | [(_, value)] => read value
    | _ => .error (.duplicateField name)
  | .array [value] => read value
  | .array _ => .error .invalidLength
  | _ => .error .invalidType

def readString : JsonValue → Except SerdeError String
  | .string s => .ok s
  | _ => .error .invalidType

/-- The derived serializers of a key type. -/
structure SerdeKey (K : Type) where
  serialize : K → JsonValue
  deserialize : JsonValue → Except SerdeError K

def CoinListKey.serde : SerdeKey CoinListKey where
  serialize key := .object [("coin_id", .string key.coinId)]
  deserialize value := (readField "coin_id" readString value).map CoinListKey.mk

def TsKey.serde (crates : CursorCrates) : SerdeKey TsKey where
  serialize key := .object [("ts", .string (crates.formatTs key.ts))]
  deserialize value :=
    (readField "ts" (fun v => do
      let text ← readString v
      (crates.parseTs text).mapError .custom) value).map TsKey.mk

variable {K : Type} (crates : CursorCrates) (serde : SerdeKey K)

def encodeKeysetCursor (key : K) : String :=
  let json := crates.toJson (serde.serialize key)
  crates.encodeBase64 json.toUTF8

def decodeKeysetCursor (cursor : String) : Except String K :=
  match crates.decodeBase64 cursor with
  | none => .error "invalid cursor: bad base64 encoding"
  | some bytes =>
    match crates.fromJson bytes with
    | .error e => .error ("invalid cursor: " ++ e)
    | .ok value =>
      (serde.deserialize value).mapError fun e => "invalid cursor: " ++ crates.describe e

/-- A key that is written as an object of one string is read back when its
`Deserialize` undoes its `Serialize`. -/
theorem decodeKeysetCursor_encode {key : K} {name value : String}
    (hwrite : serde.serialize key = .object [(name, .string value)])
    (hread : serde.deserialize (.object [(name, .string value)]) = .ok key) :
    decodeKeysetCursor crates serde (encodeKeysetCursor crates serde key) = .ok key := by
  unfold decodeKeysetCursor encodeKeysetCursor
  rw [hwrite]
  simp only [crates.decode_encode_base64, crates.fromJson_toJson, hread]
  rfl

/-- The cursors of `GET /v1/coins`. -/
def coinListCodec : KeysetCodec CoinListKey where
  encode := encodeKeysetCursor crates CoinListKey.serde
  decode := decodeKeysetCursor crates CoinListKey.serde
  decode_encode key := by
    apply decodeKeysetCursor_encode crates CoinListKey.serde rfl
    simp [CoinListKey.serde, readField, readString, Except.map]

/-- The cursors of the time-series endpoints. -/
def tsCodec : KeysetCodec TsKey where
  encode := encodeKeysetCursor crates (TsKey.serde crates)
  decode := decodeKeysetCursor crates (TsKey.serde crates)
  decode_encode key := by
    apply decodeKeysetCursor_encode crates (TsKey.serde crates) rfl
    simp [TsKey.serde, readField, readString, crates.parseTs_formatTs, Except.map, Except.mapError,
      bind, Except.bind]

end CryptoCollector.Api
