/-!
Quoted text. Quotes and backslashes are written behind a backslash, control characters by a
mnemonic letter or by their code in hexadecimal, all else as it is; so a quoted text stays on one
line.
-/
namespace MessageSchema
namespace Text

def escapeLetters : List (Char × Char) :=
  [('"', '"'), ('\\', '\\'), ('\x08', 'b'), ('\t', 't'), ('\n', 'n'), ('\x0c', 'f'), ('\r', 'r')]

def codeDigits (n : Nat) : List Char :=
  ['0', '0', Nat.digitChar (n / 16), Nat.digitChar (n % 16)]

def escape (c : Char) : List Char :=
  match escapeLetters.lookup c with
  | some letter => ['\\', letter]
  | none => if c.toNat < 0x20 then '\\' :: 'u' :: codeDigits c.toNat else [c]

def quoted (cs : List Char) : List Char := '"' :: cs.flatMap escape ++ ['"']

end Text
end MessageSchema
