/-
Quoted texts: the notation in which messages and outlines show a text.

A quoted text stands between quotation marks.  Quotation marks and backslashes
follow a backslash; the line break, the carriage return, the tab and the null
character have letters; any other character without a shape of its own is
written by its code point, as `\u` and a hexadecimal number in braces.

* `quote_of_plain` — a text of plain characters is shown as it is.
-/
import ReversibleGrammar.Text.Printable

namespace ReversibleGrammar.Text

/-- The characters that stand for `c` inside a quoted text. -/
def quoteChar (c : Char) : List Char :=
  match c with
  | '"' => ['\\', '"']
  | '\\' => ['\\', '\\']
  | '\n' => ['\\', 'n']
  | '\r' => ['\\', 'r']
  | '\t' => ['\\', 't']
  | '\x00' => ['\\', '0']
  | c =>
    if isPrintable c then [c]
    else ['\\', 'u', '\x7b'] ++ Nat.toDigits 16 c.toNat ++ ['\x7d']

/-- The text between quotation marks, with its special characters escaped. -/
def quote (s : String) : String :=
  String.ofList ('"' :: s.toList.flatMap quoteChar ++ ['"'])

/-- Printable and neither a quotation mark nor a backslash. -/
def IsPlain (c : Char) : Prop := quoteChar c = [c]

theorem flatMap_quoteChar_of_plain {cs : List Char} (h : ∀ c ∈ cs, IsPlain c) :
    cs.flatMap quoteChar = cs := by
  induction cs with
  | nil => rfl
  | cons c cs ih =>
    have hc : quoteChar c = [c] := h c List.mem_cons_self
    rw [List.flatMap_cons, hc, ih fun d hd => h d (List.mem_cons_of_mem c hd)]
    rfl

theorem quote_of_plain {s : String} (h : ∀ c ∈ s.toList, IsPlain c) :
    quote s = String.ofList ('"' :: s.toList ++ ['"']) := by
  rw [quote, flatMap_quoteChar_of_plain h]

end ReversibleGrammar.Text
