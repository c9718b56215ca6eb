import Mpz.Lib.Method
import Mpz.Lib.Run
import Mpz.Core.Block
import Mpz.Lib.RangeSet
import Mpz.Core.Gf128
import Mpz.Lib.Buffer
import Mpz.Circuits.Circuit
import Mpz.Memory.Correlated
import Mpz.Memory.Visibility
import Mpz.Memory.Store
import Mpz.Memory.WriteOnce
import Mpz.Circuits.Wires
import Mpz.Garble.HalfGate
import Mpz.Garble.Evaluator
import Mpz.Garble.Garbler
import Mpz.Garble.Correctness
import Mpz.Garble.View
import Mpz.Lib.ProductCheck
import Mpz.Zk.Vole
import Mpz.Zk.Check
import Mpz.Zk.Soundness
import Mpz.Zk.Prover
import Mpz.Zk.Verifier
import Mpz.Zk.Execution
import Mpz.Zk.Schedule
import Mpz.Zk.Completeness
import Mpz.Garble.SharedView
import Mpz.Garble.Agreement
import Mpz.Memory.KeyStore
import Mpz.Memory.MacStore
import Mpz.Memory.Decode
import Mpz.Garble.GarblerStore
import Mpz.Garble.Decoded
import Mpz.Garble.EvaluatorStore
import Mpz.Memory.Adjust
import Mpz.Zk.ProverStore
import Mpz.Zk.VerifierStore
import Mpz.Stores.InFlight
import Mpz.Lib.Triple
import Mpz.Stores.NoPanic
import Mpz.Lib.Refusal
import Mpz.Stores.Rejected
import Mpz.Garble.WrittenOnce
import Mpz.Stores.AssignOnce
import Mpz.Hash.Block
import Mpz.Hash.Keccak256
import Mpz.Hash.Session
import Mpz.Hash.Sha256
import Mpz.Common.Barrier
import Mpz.Lib.Requests
import Mpz.Ot.Rcot
import Mpz.Ot.Derandomize
import Mpz.Ot.ChouOrlandi
import Mpz.Ole.Role
import Mpz.ShareConversion.Convert
import Mpz.ShareConversion.Rounds
import Mpz.Ot.Shared
import Mpz.Ot.SharedFlush
import Mpz.Garble.SemiHonest
import Mpz.Garble.InStep
import Mpz.Common.Session
import Mpz.Ole.Ideal
import Mpz.Common.Syncer
import Mpz.Zk.Rerun
import Mpz.Ole.OverRot
import Mpz.Zk.Aligned
import Mpz.Ot.Randomize
import Mpz.Common.ThreadPool
import Mpz.Circuits.Builder
import Mpz.Circuits.Ops
import Mpz.Common.Future
import Mpz.Fields.Bmul
import Mpz.Fields.Soft
import Mpz.Fields.Field
import Mpz.Clmul.Soft
import Mpz.Lib.Shuffle
import Mpz.Transpose.Scalar
import Mpz.Common.Map
import Mpz.Ot.Kos
import Mpz.Circuits.Build
import Mpz.Lib.Regex
import Mpz.Circuits.Parse
import Mpz.Circuits.ParseReturns
import Mpz.IdealVm.Acts
import Mpz.IdealVm.Faithful
import Mpz.Core.Cggm
import Mpz.Core.Lpn
import Mpz.Core.Prg
import Mpz.Fields.Encoding
import Mpz.Ot.Spcot
import Mpz.Memory.Views
import Mpz.Garble.Preprocessed
import Mpz.Circuits.Renumber
import Mpz.Circuits.Live
import Mpz.Circuits.Blake3
import Mpz.Lib.LeftTree
import Mpz.Lib.Lists
import Mpz.Hash.Blake3
import Mpz.Circuits.Program
import Mpz.Garble.Compiled
import Mpz.Ot.SpcotParties
import Mpz.Zk.Chunked
import Mpz.Ot.Mpcot
import Mpz.Ot.Ferret
