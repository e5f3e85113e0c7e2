import MipsMacro.Options
import MipsMacro.Register

/-!
Macro parameters, told apart by their text. A percent sign with something behind it is always one;
in SPIM style a dollar sign is one too, unless the whole names a register.
-/

namespace MipsMacro

def isParameter (spim : Bool) (registers : RegisterTable) (text : String) : Bool :=
  (spim && text.toList.head? == some '$' && !registers.isRegister text) ||
    (text.toList.head? == some '%' && text.toList.length > 1)

/-- What an expansion is carried out with. -/
structure Engine where
  options : Options := {}
  registers : RegisterTable := Mips.registers

def Engine.isParameter (e : Engine) (text : String) : Bool :=
  MipsMacro.isParameter e.options.acceptSpimParameters e.registers text

end MipsMacro
