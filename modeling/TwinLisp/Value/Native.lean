/-!
The functions every program starts with. `Native.all` lists them in the order in which they are
defined, and `Native.text` is the name each is defined under.
-/

namespace TwinLisp

/-- A function supplied by the runtime. -/
inductive Native where
  | add | mul | sub | div | less | greater | lessEq | greaterEq | equal | notEqual
  | inc | dec | quot | rem | mod | isZero | isPos | isNeg | isNumber | max | min
  | list | vector | hashMap | hashSet | count | isEmpty | first | rest | next | seq | vec | nth
  | get | contains | conj | assoc | dissoc | cons | concat | into | keys | vals | range
  | str | prStr | print | println | prn | subs | name | keyword | symbol
  | not | identity | isNil | isString | isKeyword | isSymbol | isFn | isVector | isMap | isSet
  | isList | apply | map | filter | reduce | exInfo | exMessage | exData | inNs | gensym | deref
  | macroexpand
  deriving DecidableEq, Repr, Inhabited

namespace Native

/-- The name a native is defined under. -/
def text : Native → String
  | add => "+" | mul => "*" | sub => "-" | div => "/" | less => "<" | greater => ">"
  | lessEq => "<=" | greaterEq => ">=" | equal => "=" | notEqual => "not="
  | inc => "inc" | dec => "dec" | quot => "quot" | rem => "rem" | mod => "mod"
  | isZero => "zero?" | isPos => "pos?" | isNeg => "neg?" | isNumber => "number?"
  | max => "max" | min => "min"
  | list => "list" | vector => "vector" | hashMap => "hash-map" | hashSet => "hash-set"
  | count => "count" | isEmpty => "empty?" | first => "first" | rest => "rest" | next => "next"
  | seq => "seq" | vec => "vec" | nth => "nth" | get => "get" | contains => "contains?"
  | conj => "conj" | assoc => "assoc" | dissoc => "dissoc" | cons => "cons" | concat => "concat"
  | into => "into" | keys => "keys" | vals => "vals" | range => "range"
  | str => "str" | prStr => "pr-str" | print => "print" | println => "println" | prn => "prn"
  | subs => "subs" | name => "name" | keyword => "keyword" | symbol => "symbol"
  | not => "not" | identity => "identity" | isNil => "nil?" | isString => "string?"
  | isKeyword => "keyword?" | isSymbol => "symbol?" | isFn => "fn?" | isVector => "vector?"
  | isMap => "map?" | isSet => "set?" | isList => "list?" | apply => "apply" | map => "map"
  | filter => "filter" | reduce => "reduce" | exInfo => "ex-info" | exMessage => "ex-message"
  | exData => "ex-data" | inNs => "in-ns" | gensym => "gensym" | deref => "deref"
  | macroexpand => "macroexpand-1"

/-- All natives in the order of their definition. -/
def all : List Native :=
  [add, mul, sub, div, less, greater, lessEq, greaterEq, equal, notEqual, inc, dec, quot, rem, mod,
   isZero, isPos, isNeg, isNumber, max, min,
   list, vector, hashMap, hashSet, count, isEmpty, first, rest, next, seq, vec, nth, get, contains,
   conj, assoc, dissoc, cons, concat, into, keys, vals, range,
   str, prStr, print, println, prn, subs, name, keyword, symbol,
   not, identity, isNil, isString, isKeyword, isSymbol, isFn, isVector, isMap, isSet, isList,
   apply, map, filter, reduce, exInfo, exMessage, exData, inNs, gensym, deref, macroexpand]

theorem mem_all (n : Native) : n ∈ all := by cases n <;> decide

end Native

end TwinLisp
