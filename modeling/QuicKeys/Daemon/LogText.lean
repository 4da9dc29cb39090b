import QuicKeys.Daemon.State
import QuicKeys.Lib.Ascii
import QuicKeys.Lib.Numerals

/-!
# The text of the log lines

What the handlers write to `std::cerr`. The stream has its default settings: numbers of
type `double` have six significant digits.
-/

namespace QuicKeys.Daemon

open Ascii

/-- A `double` on a stream. -/
def double (q : ℚ) : List Char := Numerals.general 6 q

/-- An unsigned number on a stream. -/
def unsigned (n : ℕ) : List Char := Nat.toDigits 10 n

def LogLine.text : LogLine → List UInt8
  | .heal key healMs =>
    ascii (['[', 'h', 'e', 'a', 'l', ']', ' ', 'k', 'e', 'y', '='] ++ unsigned key.toNat
      ++ [' ', 'h', 'e', 'a', 'l', '_', 'm', 's', '='] ++ double healMs ++ ['\n'])
  | .stuck key ageMs =>
    ascii (['[', 's', 't', 'u', 'c', 'k', ']', ' ', 'k', 'e', 'y', '='] ++ unsigned key.toNat
      ++ [' ', 'a', 'g', 'e', '_', 'm', 's', '='] ++ double ageMs ++ ['\n'])
  | .watchdog key ageMs =>
    ascii (['[', 'w', 'a', 't', 'c', 'h', 'd', 'o', 'g', ']', ' ', 'k', 'e', 'y', '=']
      ++ unsigned key.toNat ++ [' ', 'a', 'g', 'e', '_', 'm', 's', '='] ++ double ageMs
      ++ ['\n'])
  | .drop dtMs cmd key =>
    ascii (['[', 'd', 'r', 'o', 'p', ']', ' ', 'k', 'i', 'n', 'd', '=', 'd', 'e', 'a', 'd', 'l',
      'i', 'n', 'e', ' ', 'd', 't', '_', 'm', 's', '='] ++ double dtMs
      ++ [' ', 'c', 'm', 'd', '=']) ++ cmd ++ ascii [' ', 'k', 'e', 'y', '='] ++ key
      ++ ascii ['\n']
  | .dropQuicEdge dtMs key =>
    ascii (['[', 'd', 'r', 'o', 'p', ']', ' ', 'k', 'i', 'n', 'd', '=', 'd', 'e', 'a', 'd', 'l',
      'i', 'n', 'e', ' ', 'd', 't', '_', 'm', 's', '='] ++ double dtMs
      ++ [' ', 'c', 'm', 'd', '=', 'q', 'u', 'i', 'c', '_', 'e', 'd', 'g', 'e', ' ', 'k', 'e',
        'y', '='] ++ unsigned key.toNat ++ ['\n'])
  | .lat dtMs cmd key =>
    ascii (['[', 'l', 'a', 't', ']', ' ', 'd', 't', '_', 'm', 's', '='] ++ double dtMs
      ++ [' ', 'c', 'm', 'd', '=']) ++ cmd ++ ascii [' ', 'k', 'e', 'y', '='] ++ key
      ++ ascii ['\n']
  | .latQuicEdge dtMs seq usage =>
    ascii (['[', 'l', 'a', 't', ']', ' ', 'd', 't', '_', 'm', 's', '='] ++ double dtMs
      ++ [' ', 'c', 'm', 'd', '=', 'q', 'u', 'i', 'c', '_', 'e', 'd', 'g', 'e', ' ', 's', 'e',
        'q', '='] ++ unsigned seq.toNat ++ [' ', 'u', 's', 'a', 'g', 'e', '=']
      ++ unsigned usage.toNat ++ ['\n'])

end QuicKeys.Daemon
