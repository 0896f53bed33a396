/-! The doubles nearest to the mathematical constants. -/

namespace FormulaDrawing.Number

def pi : Float := 3.141592653589793

def euler : Float := 2.718281828459045

def tau : Float := 6.283185307179586

end FormulaDrawing.Number
