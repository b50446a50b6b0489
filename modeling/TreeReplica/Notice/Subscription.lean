/-!
Subscriptions: which paths lie under the text that a peer subscribed to. -/

namespace TreeReplica

namespace Subscription

/-- Characters without the slashes at their end. -/
def trimSlashes (chars : List Char) : List Char := (chars.reverse.dropWhile (· = '/')).reverse

/-- The characters behind `front`, if the text starts with it. -/
def behind : List Char → List Char → Option (List Char)
  | [], text => some text
  | _ :: _, [] => none
  | c :: front, d :: text => if c = d then behind front text else none

/-- Whether `path` is what was subscribed to, or lies below it. The empty text covers everything. -/
def covers (subscribed path : String) : Bool :=
  subscribed = "" || subscribed = path ||
    match behind (trimSlashes subscribed.toList) path.toList with
    | some (c :: _) => c = '/'
    | _ => false

/-- Adds a text to an ordered list without repetition. -/
def add (text : String) : List String → List String
  | [] => [text]
  | s :: rest => if text = s then s :: rest else if text < s then text :: s :: rest else s :: add text rest

end Subscription

end TreeReplica
