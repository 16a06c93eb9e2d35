import DispCalc.Evaluators
import DispCalc.ExprTree.Rebuilt
import DispCalc.Iqxmlrpc.Message
import DispCalc.Iqxmlrpc.Network
import DispCalc.MessageBox
import DispCalc.Negation
import DispCalc.Replacing
import DispCalc.Sentences
import DispCalc.ServerController
import DispCalc.Supervisor.Abort
import DispCalc.Supervisor.ChooseSrv
import DispCalc.Supervisor.Computable
import DispCalc.Supervisor.Cutting
import DispCalc.Supervisor.Distributed
import DispCalc.WholeSentences
import DispCalc.Dispersed
import DispCalc.Iqxmlrpc.Answering
