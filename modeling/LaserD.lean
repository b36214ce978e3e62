import LaserD.Abi.Rearrange
import LaserD.Cgelem.Bounds
import LaserD.Cgelem.CompareSound
import LaserD.Cgelem.FieldUpdates
import LaserD.Chkformat.Pairing
import LaserD.Common.OutBuffer
import LaserD.Common.OutBufferRuns
import LaserD.Container.SelfAppend
import LaserD.Ctfe.ArrayLength
import LaserD.Ctfe.PointerArithmetic
import LaserD.Division.Cddiv
import LaserD.Dvec.Refinement
import LaserD.Equality.Exactness
import LaserD.Evalu8.Exactness
import LaserD.Flow.LiveRuns
import LaserD.Flow.Loops
import LaserD.Flow.Passes
import LaserD.Hash.Iteration
import LaserD.Hash.Packed
import LaserD.Hash.Reentry
import LaserD.Hash.StringPolicy
import LaserD.Hash.Termination
import LaserD.Int128.Shifts
import LaserD.Int128.Udivmod
import LaserD.Ivs.LinearTest
import LaserD.Layout.Finalize
import LaserD.Lexer.NumberExact
import LaserD.Lexer.QuotedRoundTrip
import LaserD.Mangle.ExpressionInjective
import LaserD.Mangle.Injective
import LaserD.Memory.Alignment
import LaserD.Memory.Served
import LaserD.Root.AssocArrayRuns
import LaserD.Root.BitArray
import LaserD.Root.LocationRuns
import LaserD.Root.Region
import LaserD.Root.ResponseExpansion
import LaserD.Root.SpellerSearch
import LaserD.Root.StringRuns
import LaserD.Trees.Preservation
import LaserD.Vrp.BitwiseExact
import LaserD.Vrp.Expressions
import LaserD.Vrp.Quotients
