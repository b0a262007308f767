import Cachedb.Proofs.Decimal

/-!
# Replies as a client reads them

A reply is a value of the protocol: a line of text, an error, a number, a
string of bytes, nothing, or an array of values. `RespValue.encode` is its one
encoding, and `RespValue.decode` is what a client does with the bytes it
receives: it reads a line, and what the first byte of it announces.

A text that stands in a line cannot hold the end of one, and `LineText` is the
type of those texts: a value that could not be told apart from two does not
exist.
-/

namespace Cachedb

/-- No end of a line. -/
def OneLine (s : Bytes) : Prop := ∀ c ∈ s, c ≠ cr ∧ c ≠ lf

instance instDecidableOneLine (s : Bytes) : Decidable (OneLine s) :=
  decidable_of_iff ((s.all fun c => c != cr && c != lf) = true)
    (by simp [OneLine])

abbrev LineText := { s : Bytes // OneLine s }

inductive RespValue where
  | simple (s : LineText)
  | error (msg : LineText)
  | integer (n : Int)
  | bulk (data : Bytes)
  | null
  | array (elems : List RespValue)

namespace RespValue

/-- A line with what it announces in front. -/
def line (tag : UInt8) (s : Bytes) : Bytes := tag :: (s ++ crlf)

mutual

def encode : RespValue → Bytes
  | .simple s => line 43 s.1
  | .error msg => line 45 msg.1
  | .integer n => line 58 (decimalInt n)
  | .bulk data => line 36 (decimalInt data.length) ++ (data ++ crlf)
  | .null => line 36 (decimalInt (-1))
  | .array elems => line 42 (decimalInt elems.length) ++ encodeAll elems

def encodeAll : List RespValue → Bytes
  | [] => []
  | v :: vs => encode v ++ encodeAll vs

end

/-- A line and what is behind it. -/
def readLine (inp : Bytes) : Option (Bytes × Bytes) :=
  (RespParser.findCrlf inp).map fun i => (inp.take i, inp.drop (i + 2))

/-- What a client finds next: a whole value, or the header of an array. -/
inductive Item where
  | value (v : RespValue)
  | opening (count : Nat)

/-- What a line announces, and what is left behind it. -/
def readItem (tag : UInt8) (line rest : Bytes) : Option (Item × Bytes) :=
  if tag = 43 then
    if h : OneLine line then some (.value (.simple ⟨line, h⟩), rest) else none
  else if tag = 45 then
    if h : OneLine line then some (.value (.error ⟨line, h⟩), rest) else none
  else if tag = 58 then (readInt line).map fun n => (.value (.integer n), rest)
  else if tag = 36 then
    (readInt line).bind fun n =>
      if n = -1 then some (.value .null, rest)
      else if n < 0 ∨ (rest.drop n.toNat).take 2 ≠ crlf then none
      else some (.value (.bulk (rest.take n.toNat)), rest.drop (n.toNat + 2))
  else if tag = 42 then
    (readInt line).bind fun n => if n < 0 then none else some (.opening n.toNat, rest)
  else none

def nextItem : Bytes → Option (Item × Bytes)
  | [] => none
  | tag :: inp => (readLine inp).bind fun (line, rest) => readItem tag line rest

/-- The next `count` values. Every item takes a byte at least, so the length
of the input is fuel enough. -/
def decodeMany : Nat → Nat → Bytes → Option (List RespValue × Bytes)
  | _, 0, inp => some ([], inp)
  | 0, _ + 1, _ => none
  | fuel + 1, count + 1, inp =>
      (nextItem inp).bind fun (item, rest) =>
        match item with
        | .value v => (decodeMany fuel count rest).map fun (vs, rest) => (v :: vs, rest)
        | .opening k =>
            (decodeMany fuel k rest).bind fun (elems, rest) =>
              (decodeMany fuel count rest).map fun (vs, rest) => (.array elems :: vs, rest)

def decode (count : Nat) (inp : Bytes) : Option (List RespValue × Bytes) :=
  decodeMany inp.length count inp

/-! ## What is encoded is decoded -/

theorem readLine_line {s : Bytes} (h : OneLine s) (rest : Bytes) :
    readLine (s ++ (crlf ++ rest)) = some (s, rest) := by
  unfold readLine
  rw [RespParser.findCrlf_line (fun c hc => (h c hc).1)]
  simp only [Option.map_some, List.take_left]
  rw [← List.drop_drop, List.drop_left]
  rfl

theorem nextItem_line (tag : UInt8) {s : Bytes} (h : OneLine s) (rest : Bytes) :
    nextItem (line tag s ++ rest) = readItem tag s rest := by
  unfold line
  rw [List.cons_append, List.append_assoc, nextItem, readLine_line h]
  rfl

/-- What a client finds at the beginning of an encoding. -/
theorem nextItem_encode (v : RespValue) (rest : Bytes) :
    nextItem (v.encode ++ rest) =
      match v with
      | .array elems => some (.opening elems.length, encodeAll elems ++ rest)
      | v => some (.value v, rest) := by
  cases v with
  | simple s =>
      rw [encode, nextItem_line 43 s.2, readItem, if_pos rfl, dif_pos s.2]
  | error msg =>
      rw [encode, nextItem_line 45 msg.2, readItem, if_neg (by decide), if_pos rfl,
        dif_pos msg.2]
  | integer n =>
      rw [encode, nextItem_line 58 (decimalInt_line n), readItem, if_neg (by decide),
        if_neg (by decide), if_pos rfl, readInt_decimalInt]
      rfl
  | null =>
      rw [encode, nextItem_line 36 (decimalInt_line (-1)), readItem, if_neg (by decide),
        if_neg (by decide), if_neg (by decide), if_pos rfl, readInt_decimalInt]
      rfl
  | bulk data =>
      rw [encode, List.append_assoc, nextItem_line 36 (decimalInt_line data.length), readItem,
        if_neg (by decide), if_neg (by decide), if_neg (by decide), if_pos rfl,
        readInt_decimalInt, Option.bind_some, if_neg (by omega), Int.toNat_natCast,
        List.append_assoc, List.drop_left, List.take_left]
      rw [if_neg (by rw [not_or]; exact ⟨by omega, not_not.mpr rfl⟩), ← List.drop_drop,
        List.drop_left]
      rfl
  | array elems =>
      rw [encode, List.append_assoc, nextItem_line 42 (decimalInt_line elems.length), readItem,
        if_neg (by decide), if_neg (by decide), if_neg (by decide), if_neg (by decide),
        if_pos rfl, readInt_decimalInt, Option.bind_some, if_neg (by omega), Int.toNat_natCast]

theorem encode_length_pos (v : RespValue) : 0 < v.encode.length := by
  cases v <;> simp [encode, line]

/-- The induction is on the fuel: an array costs its header, and both its
elements and what follows have less. -/
theorem decodeMany_encodeAll (fuel : Nat) :
    ∀ (vs : List RespValue) (rest : Bytes), (encodeAll vs).length ≤ fuel →
      decodeMany fuel vs.length (encodeAll vs ++ rest) = some (vs, rest) := by
  induction fuel with
  | zero =>
      intro vs rest h
      cases vs with
      | nil => rfl
      | cons v vs =>
          have := v.encode_length_pos
          rw [encodeAll, List.length_append] at h
          omega
  | succ fuel ih =>
      intro vs rest h
      cases vs with
      | nil => rfl
      | cons v vs =>
          have hpos := v.encode_length_pos
          rw [encodeAll, List.length_append] at h
          rw [encodeAll, List.length_cons, decodeMany, List.append_assoc, nextItem_encode]
          have hvs := ih vs rest (by omega)
          cases v with
          | array elems =>
              rw [encode, List.length_append] at h
              have hheader : 0 < (line 42 (decimalInt elems.length)).length := Nat.succ_pos _
              simp only [Option.bind_some, ih elems _ (by omega), hvs]
              rfl
          | simple s => simp only [Option.bind_some, hvs]; rfl
          | error msg => simp only [Option.bind_some, hvs]; rfl
          | integer n => simp only [Option.bind_some, hvs]; rfl
          | bulk data => simp only [Option.bind_some, hvs]; rfl
          | null => simp only [Option.bind_some, hvs]; rfl

theorem encodeAll_eq (vs : List RespValue) : encodeAll vs = (vs.map encode).flatten := by
  induction vs with
  | nil => rfl
  | cons v vs ih => rw [encodeAll, ih, List.map_cons, List.flatten_cons]

/-- A client finds the values that were sent, where they end, and what is
behind them. -/
theorem decode_encode (vs : List RespValue) (rest : Bytes) :
    decode vs.length ((vs.map encode).flatten ++ rest) = some (vs, rest) := by
  rw [← encodeAll_eq]
  exact decodeMany_encodeAll _ vs rest (by rw [List.length_append]; omega)

end RespValue

end Cachedb
