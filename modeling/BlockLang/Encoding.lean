/-! # Encodings

A file is read as UTF-8 if all of it is valid UTF-8, and otherwise as Latin-1,
where every byte is one character. -/

namespace BlockLang

/-- The text of some bytes in Latin-1. -/
def latin1 (bytes : ByteArray) : String :=
  String.ofList (bytes.toList.map (fun b => Char.ofNat b.toNat))

inductive Encoding where
  | utf8
  | latin1
deriving DecidableEq, Repr

/-- The text of some bytes, and the encoding in which they have been read. -/
def decode (bytes : ByteArray) : Encoding × String :=
  match String.fromUTF8? bytes with
  | some text => (.utf8, text)
  | none => (.latin1, latin1 bytes)

end BlockLang
