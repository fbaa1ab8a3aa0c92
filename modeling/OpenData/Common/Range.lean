import OpenData.Common.Storage

/-!
# Ranges of keys

A scan takes a range of byte strings. All keys that start with the same bytes form a range, whose
end is the successor of these bytes.
-/

namespace OpenData.Common

open Lib (Bytes)

inductive KeyBound where
  | included (key : Bytes)
  | excluded (key : Bytes)
  | unbounded
deriving Repr, DecidableEq

structure BytesRange where
  start : KeyBound
  stop : KeyBound
deriving Repr, DecidableEq

/-- `lex_increment` on the reversed bytes: the last byte below `0xFF` is incremented and what
follows it is dropped. -/
def lexIncrementRev : Bytes → Option Bytes
  | [] => none
  | last :: rest => if last < 0xFF then some ((last + 1) :: rest) else lexIncrementRev rest

def lexIncrement (data : Bytes) : Option Bytes := (lexIncrementRev data.reverse).map List.reverse

namespace BytesRange

def ofPrefix (head : Bytes) : BytesRange :=
  if head = [] then { start := .unbounded, stop := .unbounded }
  else
    match lexIncrement head with
    | some stop => { start := .included head, stop := .excluded stop }
    | none => { start := .included head, stop := .unbounded }

def contains (range : BytesRange) (key : Bytes) : Bool :=
  (match range.start with
    | .included s => decide (s ≤ key)
    | .excluded s => decide (s < key)
    | .unbounded => true) &&
  match range.stop with
    | .included e => decide (key ≤ e)
    | .excluded e => decide (key < e)
    | .unbounded => true

end BytesRange

def Storage.scanRange (storage : Storage) (range : BytesRange) : List Record :=
  (storage.toList.filter fun kv => range.contains kv.1).map fun kv => { key := kv.1, value := kv.2 }

end OpenData.Common
