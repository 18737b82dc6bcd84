/-!
# The prelude

Types that every program can use without declaring them. The prelude is compiled with a program,
before it.
-/

namespace Mixin

def preludeText : String :=
  "// Types every program can refer to without declaring them.

final class Int
final class Long
final class Double
final class Boolean
final class Char
final class String
final class Unit

class AnyRef

// Mixed into every case class.
trait Product
trait Serializable

trait Function0[+R] \x7b
  def apply(): R
\x7d

trait Function1[-T1, +R] \x7b
  def apply(v1: T1): R
\x7d

trait Function2[-T1, -T2, +R] \x7b
  def apply(v1: T1, v2: T2): R
\x7d
"

end Mixin
