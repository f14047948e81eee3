import Husky.Param
import Husky.Round
import Husky.SGD
import Husky.SGDRound
import Husky.LabeledPoint
import Husky.Model
import Husky.SVM
import Husky.SvmFgd
import Husky.Regression
import Husky.RegressionSGD
import Husky.SvmExample
