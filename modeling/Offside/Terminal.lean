/-!
# Colours on a terminal

Texts with the escape codes that colour them.
-/

namespace Offside.Terminal

/-- A text between two escape codes. -/
def styled (start stop : Nat) (text : String) : String := s!"\x1b[{start}m{text}\x1b[{stop}m"

def bold (text : String) : String := styled 1 0 text

def dimmed (text : String) : String := styled 2 0 text

def red (text : String) : String := styled 31 39 text

def green (text : String) : String := styled 32 39 text

def yellow (text : String) : String := styled 33 39 text

def cyan (text : String) : String := styled 36 39 text

end Offside.Terminal
