import AegisCompiler.Lexer

/-!
# The formatter

The tool reads the tokens of a source and writes them again with its own
blanks and line breaks.
-/

namespace Aegis

namespace Formatter

/-- The text that is written for a token. -/
def emitToken (t : Token) : List Char :=
  match t.kind with
  | .ident | .intLit | .floatLit | .strLit => t.text
  | .trueKw => "true".toList
  | .falseKw => "false".toList
  | .letKw => "let".toList
  | .varKw => "var".toList
  | .fnKw => "fn".toList
  | .returnKw => "return".toList
  | .ifKw => "if".toList
  | .elseKw => "else".toList
  | .matchKw => "match".toList
  | .structKw => "struct".toList
  | .enumKw => "enum".toList
  | .forKw => "for".toList
  | .inKw => "in".toList
  | .pubKw => "pub".toList
  | .mutKw => "mut".toList
  | .i8Kw => "i8".toList
  | .i16Kw => "i16".toList
  | .i32Kw => "i32".toList
  | .i64Kw => "i64".toList
  | .u8Kw => "u8".toList
  | .u16Kw => "u16".toList
  | .u32Kw => "u32".toList
  | .u64Kw => "u64".toList
  | .f32Kw => "f32".toList
  | .f64Kw => "f64".toList
  | .boolKw => "bool".toList
  | .strKw => "str".toList
  | .plus => " + ".toList
  | .minus => " - ".toList
  | .star => " * ".toList
  | .slash => " / ".toList
  | .percent => " % ".toList
  | .eq => " = ".toList
  | .eqEq => " == ".toList
  | .bangEq => " != ".toList
  | .lt => " < ".toList
  | .ltEq => " <= ".toList
  | .gt => " > ".toList
  | .gtEq => " >= ".toList
  | .andAnd => " && ".toList
  | .orOr => " || ".toList
  | .colon => ": ".toList
  | .semicolon => ";".toList
  | .comma => ", ".toList
  | .lParen => "(".toList
  | .rParen => ")".toList
  | .lBrace => "\x7b".toList
  | .rBrace => "\x7d".toList
  | .lBracket => "[".toList
  | .rBracket => "]".toList
  | .arrow => " -> ".toList
  | .fatArrow => " => ".toList
  | .dot => ".".toList
  | .question => "?".toList
  | .ref => "&".toList
  | .refMut => "&mut ".toList
  | .doubleColon => "::".toList
  | _ => t.text

/-- The blanks of a line's indentation; none when more braces were closed than
opened. -/
def indentation (indent : Int) : List Char := List.replicate (4 * indent.toNat) ' '

/-- The output for the tokens from here on. -/
def format : List Token → Int → Bool → List Char
  | [], _, _ => []
  | t :: rest, indent, atLineStart =>
      match t.kind with
      | .eof => []
      | .lBrace => " \x7b\n".toList ++ format rest (indent + 1) true
      | .rBrace =>
          (if atLineStart then [] else "\n".toList) ++ indentation (indent - 1) ++
            "\x7d\n".toList ++ format rest (indent - 1) true
      | kind =>
          (if atLineStart then indentation indent else []) ++ emitToken t ++
            (if kind = .semicolon then "\n".toList ++ format rest indent true
            else format rest indent false)

/-- The tool: the formatted source, unless the lexer rejects it. -/
def main (fileId : SymbolId) (src : List Char) : Except LexError (List Char) := do
  let toks ← Lexer.tokenize fileId src
  return format toks 0 true

end Formatter

end Aegis
