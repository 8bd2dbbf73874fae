import LazyTensor.Dispatcher
import LazyTensor.Proofs.Evaluation.Liveness
import LazyTensor.Proofs.Evaluation.Optimized
import LazyTensor.Proofs.Evaluation.Plain
import LazyTensor.Proofs.Graph.Acceptance
import LazyTensor.Proofs.Graph.Extent
import LazyTensor.Proofs.Graph.Iteration
import LazyTensor.Proofs.Graph.Meaning
import LazyTensor.Proofs.Host.Compile
import LazyTensor.Proofs.Host.ZeroDivisor
import LazyTensor.Proofs.Kernel.MulAdd
import LazyTensor.Proofs.Ledger
import LazyTensor.Proofs.Registry
import LazyTensor.Proofs.Workers.Loop
import LazyTensor.Proofs.Shader.Transpose
import LazyTensor.Proofs.Shader.Arange
import LazyTensor.Proofs.Shader.Coefficients
import LazyTensor.Proofs.Configuration
import LazyTensor.Proofs.Tensor.Summary
import LazyTensor.Proofs.Tensor.Lifetime
import LazyTensor.Proofs.Shader.Checks
