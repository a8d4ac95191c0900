/-!
Size comparison of scalars: what norms are built from. No law is asked of the instances, so that
numbers with exceptional values and symbolic expressions are scalars too.
-/
namespace SignalVector

class Magnitude (T : Type) where
  magnitude : T → T
  larger : T → T → T

export Magnitude (magnitude larger)

end SignalVector
