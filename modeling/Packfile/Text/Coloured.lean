/-!
# Coloured text

Texts between the control sequences that make a terminal show them in a colour or in another
weight. Colours are switched off again by their own sequence, weights by the one that resets
everything.
-/

namespace Packfile.Coloured

/-- A control sequence by its number. -/
def sequence (code : Nat) : String := "\x1b[" ++ toString code ++ "m"

/-- A text between two control sequences. -/
def between (on off : Nat) (text : String) : String := sequence on ++ text ++ sequence off

/-- A red text. -/
def red : String → String := between 31 39

/-- A green text. -/
def green : String → String := between 32 39

/-- A yellow text. -/
def yellow : String → String := between 33 39

/-- A blue text. -/
def blue : String → String := between 34 39

/-- A cyan text. -/
def cyan : String → String := between 36 39

/-- A bold text. -/
def bold : String → String := between 1 0

/-- A dimmed text. -/
def dimmed : String → String := between 2 0

end Packfile.Coloured
