import NeuralSpeed.Memory
import NeuralSpeed.Simd
import NeuralSpeed.Bf16
import NeuralSpeed.Unpack
import NeuralSpeed.Rounding
import NeuralSpeed.Reduce
import NeuralSpeed.Decompress.F4
import NeuralSpeed.Decompress.S8
import NeuralSpeed.ZeroPointBias
import NeuralSpeed.Decompress.F8
import NeuralSpeed.Decompress.Dense
import NeuralSpeed.DoubleQuant
import NeuralSpeed.Elementwise
import NeuralSpeed.Quantize.Kernel
import NeuralSpeed.Quantize.Bounds
import NeuralSpeed.ColBlockReduce
import NeuralSpeed.Layernorm
import NeuralSpeed.WriteBack
import NeuralSpeed.Pipeline
