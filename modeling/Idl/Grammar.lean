import Idl.Comment
import Idl.Grammar.Native
import Idl.Grammar.Protobuf
import Idl.Token.Lexer

/-!
# Reading a schema

A text is cut into tokens, the tokens are read by the grammar of its dialect, and the comments are
attached to what they describe.  Every lexical fault is reported, and only the first of the
grammar.
-/

namespace Idl

namespace Dialect

def grammar {σ : Type} [TokenStream σ] (config : ParseConfig) : Dialect → Parser σ Schema
  | native => Native.schema config
  | protobuf => Protobuf.schema config

def build (dialect : Dialect) (config : ParseConfig) (tokens : List (Located Token)) :
    Except Diagnostic Schema :=
  (dialect.grammar config).run tokens

def parse (dialect : Dialect) (config : ParseConfig) (source : String) :
    Except (List Diagnostic) Schema := do
  let tokens ← Lexer.tokenize source.toList
  let schema ← (dialect.build config tokens).mapError ([·])
  return schema.attachComments source tokens

end Dialect

end Idl
